import EndpointPreview.Json.Dialect
import EndpointPreview.Settings.Node

/-!
The formats at their strictest. A double is written with its shortest digits, a JSON document holds
its value and white space only and a number too large makes it malformed, and the null node of a
configuration has no text.
-/

namespace EndpointPreview

@[reducible] def Json.strict : Json.Dialect where
  digits := Decimal.shortest
  skipsMark := false
  endsAtZero := false
  tellsOverflow := false

@[reducible] def Settings.strict : Settings.NodeDialect where
  nullText := none

end EndpointPreview
