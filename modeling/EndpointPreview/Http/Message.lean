import EndpointPreview.Http.Url
import EndpointPreview.Json.Reader
import EndpointPreview.Json.Writer
import EndpointPreview.Text.Line

/-!
Requests and responses. Header names that differ only in the case of their letters
are one name; headers stand in the order of their names without regard to case and
keep the spelling that was written first.
-/

namespace EndpointPreview.Http

open Text

abbrev Headers := List (Bytes × Bytes)

namespace Headers

def nameLess (a b : Bytes) : Bool := precedes (lowercase a) (lowercase b)

def set (name value : Bytes) (headers : Headers) : Headers :=
  Table.set nameLess name value headers

def get? (name : Bytes) (headers : Headers) : Option Bytes := Table.find? nameLess name headers

def ofList (assignments : List (Bytes × Bytes)) : Headers := Table.ofList nameLess assignments

end Headers

def contentType : Bytes := ascii "Content-Type"
def jsonType : Bytes := ascii "application/json"

structure Request where
  method : Bytes := ascii "GET"
  url : Bytes
  headers : Headers := []
  body : Bytes := []
  timeoutMs : Int := 30000
  deriving DecidableEq, Repr

structure Response where
  status : Int
  statusText : Bytes
  headers : Headers
  body : Bytes
  deriving DecidableEq, Repr

def Response.isOk (response : Response) : Bool := 200 ≤ response.status && response.status < 300

def Response.json [Json.Dialect] (response : Response) : Except Json.ReadError Json :=
  Json.read response.body

def Response.json? [Json.Dialect] (response : Response) : Option Json := Json.read? response.body

/-- A POST of a JSON value; none when the value has no text. -/
def Request.postJson? [Json.Dialect] (url : Bytes) (payload : Json) : Option Request :=
  (Json.render? payload).map fun body =>
    { method := ascii "POST", url, headers := [(contentType, jsonType)], body }

inductive TransportError where
  | badUrl (error : UrlError)
  | unsupportedScheme (scheme : Bytes)
  | noAddress (host reason : Bytes)
  | noConnection (host : Bytes) (port : Nat) (reason : Bytes)
  -- The connection failed while the request or its answer was under way.
  | interrupted (url : Url) (reason : Bytes)
  | noHeaderEnd
  | badStatusLine (line : Bytes)
  | reported (text : Bytes)
  deriving DecidableEq, Repr

def TransportError.message : TransportError → Bytes
  | badUrl error => error.message
  | unsupportedScheme scheme => beforeZero (ascii "unsupported scheme: " ++ scheme)
  | noAddress host reason =>
      beforeZero (ascii "cannot resolve host '" ++ host ++ ascii "': " ++ reason)
  | noConnection host port reason =>
      beforeZero (ascii "cannot connect to " ++ host ++ byte ':' :: decimal port ++
        ascii ": " ++ reason)
  | interrupted url reason =>
      beforeZero (ascii "request to " ++ url.text ++ ascii " failed: " ++ reason)
  | noHeaderEnd => ascii "malformed HTTP response: no header terminator"
  | badStatusLine line => beforeZero (ascii "malformed HTTP status line: " ++ line)
  | reported text => beforeZero text

def blankLine : Bytes := [13, 10, 13, 10]

/-- Value of the first Content-Length line; none when absent or not a number. -/
def contentLength? (block : Bytes) : Option Int :=
  let name := ascii "content-length:"
  match (lines block).find? fun line => startsWith name (lowercase line) with
  | some line => Numeral.int32? (line.drop name.length)
  | none => none

def statusOf? (line : Bytes) : Option (Int × Bytes) :=
  let line := line.dropWhile isSpace
  let protocol := line.takeWhile (!isSpace ·)
  let (negative, body) := Numeral.takeSign ((line.dropWhile (!isSpace ·)).dropWhile isSpace)
  let digits := body.takeWhile isDigit
  let rest := body.dropWhile isDigit
  if !startsWith (ascii "HTTP/") protocol || digits.isEmpty then none
  else
    (Numeral.fits32 (Numeral.applySign negative (Numeral.ofDigits 10 digits))).map fun status =>
      (status, if rest.head? == some 32 then rest.drop 1 else rest)

def isPadding (b : UInt8) : Bool := b == 32 || b == 9

/-- Name and value of a header line; a line without a colon is none. -/
def headerOf? (line : Bytes) : Option (Bytes × Bytes) :=
  (cutAt? (byte ':') line).map fun (name, value) => (name, value.dropWhile isPadding)

def cutBody (declared : Option Int) (body : Bytes) : Bytes :=
  match declared with
  | some n => if 0 ≤ n then body.take n.toNat else body
  | none => body

def Response.parse (raw : Bytes) : Except TransportError Response :=
  match cut? blankLine raw with
  | none => .error .noHeaderEnd
  | some (head, body) =>
      let statusLine := (lines head).headD []
      match statusOf? statusLine with
      | none => .error (.badStatusLine statusLine)
      | some (status, statusText) =>
          .ok
            { status, statusText
              headers := Headers.ofList (((lines head).drop 1).filterMap headerOf?)
              body := cutBody (contentLength? (head ++ blankLine)) body }

def lineEnd : Bytes := [13, 10]

def headerLine (name value : Bytes) : Bytes := name ++ ascii ": " ++ value ++ lineEnd

def Request.headText (request : Request) (url : Url) : Bytes :=
  request.method ++ ascii " " ++ url.target ++ ascii " HTTP/1.0" ++ lineEnd ++
  headerLine (ascii "Host") (url.host ++ byte ':' :: decimal url.effectivePort) ++
  request.headers.flatMap (fun entry => headerLine entry.1 entry.2) ++
  (if !request.body.isEmpty || request.method == ascii "POST" then
    headerLine (ascii "Content-Length") (decimal request.body.length)
  else []) ++
  headerLine (ascii "Connection") (ascii "close") ++ lineEnd

def Request.wire (request : Request) : Except TransportError (Url × Bytes) :=
  match Url.parse request.url with
  | .error error => .error (.badUrl error)
  | .ok url =>
      if url.scheme = ascii "http" then .ok (url, request.headText url ++ request.body)
      else .error (.unsupportedScheme url.scheme)

end EndpointPreview.Http
