import EndpointPreview.Text.Bytes

/-!
Lines of a text. A line ends at a newline; a carriage return before it belongs
to the line end. A newline that ends the text starts no further line.
-/

namespace EndpointPreview.Text

/-- The parts between newlines; none of them contains one. -/
def rawLines : Bytes → List Bytes
  | [] => []
  | b :: rest =>
      if b == newline then [] :: rawLines rest
      else match rawLines rest with
        | [] => [[b]]
        | line :: later => (b :: line) :: later

def chompReturn (line : Bytes) : Bytes :=
  if line.getLast? == some carriageReturn then line.dropLast else line

def lines (text : Bytes) : List Bytes := (rawLines text).map chompReturn

def unlines (rows : List Bytes) : Bytes := joinWith [newline] rows

/-- Column after leading spaces and tabs; a tab goes to the next multiple of eight. -/
def indentFrom (column : Nat) : Bytes → Nat
  | [] => column
  | b :: rest =>
      if b == byte ' ' then indentFrom (column + 1) rest
      else if b == 9 then indentFrom ((column / 8 + 1) * 8) rest
      else column

def indent (line : Bytes) : Nat := indentFrom 0 line

def dropBlankEnd (rows : List Bytes) : List Bytes :=
  (rows.reverse.dropWhile isBlank).reverse

end EndpointPreview.Text
