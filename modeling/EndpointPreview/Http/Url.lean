import EndpointPreview.Text.Bytes

/-!
URLs of the form `scheme://host[:port]/path[?query][#fragment]`. A text without
`://` is a path on `http://localhost`. The fragment is dropped, the scheme and the
host are lower case, and the path starts with a slash.
-/

namespace EndpointPreview.Http

open Text

structure Url where
  scheme : Bytes
  host : Bytes
  port : Option Nat
  path : Bytes
  query : Bytes
  deriving DecidableEq, Repr

inductive UrlFault where
  | openBracket
  | badPort
  | portRange
  deriving DecidableEq, Repr

structure UrlError where
  fault : UrlFault
  url : Bytes
  deriving DecidableEq, Repr

def UrlFault.text : UrlFault → Bytes
  | openBracket => ascii "unterminated IPv6 host in url: "
  | badPort => ascii "invalid port in url: "
  | portRange => ascii "port out of range in url: "

def UrlError.message (error : UrlError) : Bytes := beforeZero (error.fault.text ++ error.url)

namespace Url

/-- The port written after the host; none when nothing is written. -/
def port? (written : Bytes) : Except UrlFault (Option Nat) :=
  if written = [] then .ok none
  else if !written.all isDigit || 5 < written.length then .error .badPort
  else
    let n := written.foldl (fun value b => value * 10 + digitValue b) 0
    if n = 0 ∨ 65535 < n then .error .portRange else .ok (some n)

/-- Host and port text of an authority; a host in brackets may hold colons. -/
def hostAndPort (authority : Bytes) : Except UrlFault (Bytes × Bytes) :=
  if authority.head? == some (byte '[') then
    match cutAt? (byte ']') authority with
    | none => .error .openBracket
    | some (opened, after) =>
        .ok (opened.drop 1, if after.head? == some (byte ':') then after.drop 1 else [])
  else .ok ((cutAtLast? (byte ':') authority).getD (authority, []))

def authority (text : Bytes) : Except UrlFault (Bytes × Option Nat) := do
  let (host, written) ← hostAndPort text
  let port ← port? written
  return (lowercase host, port)

def endsAuthority (b : UInt8) : Bool := b == byte '/' || b == byte '?'

def beforeMark (mark : UInt8) (text : Bytes) : Bytes := text.takeWhile (· != mark)

def rooted (path : Bytes) : Bytes :=
  if path.head? == some (byte '/') then path else byte '/' :: path

def pathAndQuery (rest : Bytes) : Bytes × Bytes :=
  match cutAt? (byte '?') rest with
  | some (path, query) =>
      (rooted (beforeMark (byte '#') path), beforeMark (byte '#') query)
  | none => (rooted (beforeMark (byte '#') rest), [])

def schemeMark : Bytes := ascii "://"

def localScheme : Bytes := ascii "http"
def localHost : Bytes := ascii "localhost"

def ofParts (scheme rest : Bytes) : Except UrlFault Url := do
  let (host, port) ← authority (rest.takeWhile (!endsAuthority ·))
  let (path, query) := pathAndQuery (rest.dropWhile (!endsAuthority ·))
  return ⟨lowercase scheme, host, port, path, query⟩

def ofPath (text : Bytes) : Url :=
  let (path, query) := pathAndQuery text
  ⟨localScheme, localHost, none, path, query⟩

def parse (text : Bytes) : Except UrlError Url :=
  match cut? schemeMark text with
  | none => .ok (ofPath text)
  | some (scheme, rest) => (ofParts scheme rest).mapError fun fault => ⟨fault, text⟩

def effectivePort (url : Url) : Nat :=
  url.port.getD (if url.scheme = ascii "https" then 443 else 80)

def isLoopback (url : Url) : Bool :=
  url.host == ascii "localhost" || url.host == ascii "127.0.0.1" || url.host == ascii "::1"

def target (url : Url) : Bytes :=
  if url.query.isEmpty then url.path else url.path ++ byte '?' :: url.query

def hostText (url : Url) : Bytes :=
  if url.host.contains (byte ':') then byte '[' :: url.host ++ [byte ']'] else url.host

def portText (url : Url) : Bytes :=
  match url.port with
  | some port => byte ':' :: decimal port
  | none => []

def text (url : Url) : Bytes :=
  url.scheme ++ schemeMark ++ url.hostText ++ url.portText ++ url.target

end Url
end EndpointPreview.Http
