import EndpointPreview.Notation.ReturnLiteral

/-!
Tables from paths to JSON payloads. Well-known paths have canned payloads, which
overrides replace or extend. The table of a source holds, for each of its routes,
the canned payload or else the literal that the endpoint returns.
-/

namespace EndpointPreview.Preview

open Text Notation

abbrev Routes := List (Bytes × Json)

namespace Routes

def set (path : Bytes) (payload : Json) (routes : Routes) : Routes :=
  Table.set precedes path payload routes

def get? (path : Bytes) (routes : Routes) : Option Json := Table.find? precedes path routes

def override (overrides table : Routes) : Routes := Table.setAll precedes overrides table

end Routes

def textList (texts : List String) : Json := .arr (texts.map Json.text)

def record (fields : List (String × Json)) : Json :=
  .object (fields.map fun (name, value) => (ascii name, value))

def routeTable (entries : List (String × Json)) : Routes :=
  Table.ofList precedes (entries.map fun (path, payload) => (ascii path, payload))

def cannedEndpoints : Routes := routeTable
  [ ("/", record
      [ ("message", .text "Welcome to my personal website!"),
        ("status", .text "Server is running (Preview Mode)"),
        ("features", textList
          ["Dynamic content", "Contact form", "API endpoints", "Real-time updates"]),
        ("timestamp", .text "2024-01-01T12:00:00Z") ]),
    ("/about", record
      [ ("name", .text "Alex Developer"),
        ("bio", .text "Software developer passionate about creating amazing experiences"),
        ("skills", textList ["Python", "JavaScript", "React", "Node.js", "Flask"]),
        ("experience_years", .nat 5) ]),
    ("/contact", record
      [ ("message", .text "Thank you for reaching out! (Preview Mode)"),
        ("received", .text "Form data would be processed here"),
        ("success", .bool true),
        ("timestamp", .text "2024-01-01T12:00:00Z") ]),
    ("/api/status", record
      [ ("status", .text "healthy"),
        ("version", .text "1.0.0"),
        ("uptime", .text "00:05:30"),
        ("endpoints", textList ["/", "/about", "/contact", "/api/status"]) ]) ]

def cannedConventional : Routes := routeTable
  [ ("/", record
      [ ("message", .text "Welcome to my personal website!"),
        ("status", .text "Server is running (Preview Mode)"),
        ("features", textList ["Dynamic content", "Contact form", "API endpoints"]) ]),
    ("/about", record
      [ ("name", .text "Your Name"),
        ("bio", .text "Software developer passionate about creating amazing experiences"),
        ("skills", textList ["Python", "JavaScript", "React", "Node.js"]) ]),
    ("/contact", record
      [ ("message", .text "Thank you for reaching out! (Preview Mode)"),
        ("received", .text "Form data would be processed here") ]) ]

def registration : Bytes := ascii "@app.route("

/-- The quoted route behind a registration at the front of the text, and its length there. -/
def registered? (text : Bytes) : Option (Bytes × Nat) :=
  if startsWith registration text then
    let opened := text.drop registration.length
    let route := (opened.drop 1).takeWhile (!isQuote ·)
    let closing := (opened.drop 1).drop route.length
    if (opened.head?.map isQuote).getD false && !route.isEmpty && !closing.isEmpty then
      some (route, registration.length + route.length + 2)
    else none
  else none

def conventionalRoutesFrom : Nat → Bytes → List Bytes
  | _, [] => []
  | skip + 1, _ :: rest => conventionalRoutesFrom skip rest
  | 0, b :: rest =>
      match registered? (b :: rest) with
      | some (route, length) => route :: conventionalRoutesFrom (length - 1) rest
      | none => conventionalRoutesFrom 0 rest

def conventionalRoutes (source : Bytes) : List Bytes := conventionalRoutesFrom 0 source

variable [Json.Dialect]

-- The canned payload of an endpoint's route, else the literal it returns.
def endpointPayload? (canned : Routes) (endpoint : Endpoint) : Option Json :=
  (canned.get? endpoint.route).or endpoint.returnLiteral?

def endpointRow? (canned : Routes) (endpoint : Endpoint) : Option (Bytes × Json) :=
  (endpointPayload? canned endpoint).map fun payload => (endpoint.route, payload)

def conventionalRow? (canned : Routes) (route : Bytes) : Option (Bytes × Json) :=
  (canned.get? route).map fun payload => (route, payload)

def routesOf (source : Bytes) (overrides : Routes) : Routes :=
  if hasMarker source then
    let canned := Routes.override overrides cannedEndpoints
    Table.ofList precedes ((parse source).endpoints.filterMap (endpointRow? canned))
  else
    let canned := Routes.override overrides cannedConventional
    Table.ofList precedes ((conventionalRoutes source).filterMap (conventionalRow? canned))

end EndpointPreview.Preview
