import EndpointPreview.Notation.Source

/-!
The conventional server module of a parsed source: a fixed opening, the helpers as
they were written, a route registration for each endpoint, and a fixed ending. The
opening defines an `endpoint` decorator that does nothing, and each endpoint keeps
its decorator line, so the module can be read again as decorator notation.
-/

namespace EndpointPreview.Notation

open Text

def moduleOpening : Bytes := unlines (
  [ "import os",
    "",
    "from flask import Flask, jsonify, request",
    "from flask_cors import CORS",
    "",
    "app = Flask(__name__)",
    "CORS(app)",
    "",
    "",
    "def endpoint(path, methods=None):",
    "    def decorator(func):",
    "        return func",
    "    return decorator",
    "",
    "# Helper functions",
    "" ].map ascii)

def moduleEnding : Bytes := unlines (
  [ "",
    "if __name__ == '__main__':",
    "    app.run(debug=True, host='0.0.0.0', port=int(os.environ.get('PORT', 5000)))",
    "" ].map ascii)

def indentation : Bytes := ascii "    "

def quoteRouteByte (b : UInt8) : Bytes :=
  if b == backslash || b == singleQuote then [backslash, b] else [b]

/-- A route as a single-quoted string; a quote or backslash in it is escaped. -/
def quoteRoute (route : Bytes) : Bytes :=
  singleQuote :: route.flatMap quoteRouteByte ++ [singleQuote]

/-- The lines after the first `count`; a negative count leaves none. -/
def linesAfter (count : Int) (rows : List Bytes) : List Bytes :=
  if count < 0 then [] else rows.drop count.toNat

def Endpoint.innerLines (endpoint : Endpoint) : List Bytes :=
  linesAfter endpoint.headerLines (lines endpoint.body)

def inlineLines (inlineBody : Bytes) : List Bytes :=
  if inlineBody.isEmpty then [] else [indentation ++ indentation ++ inlineBody]

def shiftLine (line : Bytes) : Bytes := if isBlank line then [] else indentation ++ line

/-- The lines below the generated header; a function needs one statement at least. -/
def Endpoint.moduleBody (endpoint : Endpoint) : List Bytes :=
  let written := inlineLines endpoint.inlineBody ++ endpoint.innerLines.map shiftLine
  if endpoint.inlineBody.isEmpty && endpoint.innerLines.all isBlank then
    written ++ [indentation ++ indentation ++ ascii "pass"]
  else written

def Endpoint.moduleLines (endpoint : Endpoint) : List Bytes :=
  [ [],
    ascii "@app.route(" ++ quoteRoute endpoint.route ++ ascii ")",
    ascii "@endpoint(" ++ quoteRoute endpoint.route ++ ascii ")",
    ascii "def " ++ endpoint.name ++ ascii "():" ] ++ endpoint.moduleBody

def Helper.moduleLines (helper : Helper) : List Bytes := [[], helper.body]

def endLines (rows : List Bytes) : Bytes := rows.flatMap fun row => row ++ [newline]

def renderModule (parsed : ParsedSource) : Bytes :=
  moduleOpening ++ endLines (parsed.helpers.flatMap Helper.moduleLines) ++
    endLines (parsed.endpoints.flatMap Endpoint.moduleLines) ++ moduleEnding

end EndpointPreview.Notation
