import EndpointPreview.Http.Message

/-!
Reading from a connection. What arrives is a list of chunks, cut anywhere; its end
is the end of the stream. The header block ends with the first blank line and has
to be complete before more than `headerLimit` bytes were read without it.
-/

namespace EndpointPreview.Http

open Text

def headerLimit : Nat := 65536

-- Outcome of reading a header block; `later` are the chunks not read yet.
inductive HeaderRead where
  | complete (headers extra : Bytes) (later : List Bytes)
  | incomplete (received : Bytes)
  deriving DecidableEq, Repr

def readHeadersFrom (received : Bytes) : List Bytes → HeaderRead
  | [] => .incomplete received
  | chunk :: later =>
      if headerLimit ≤ received.length then .incomplete received
      else
        let all := received ++ chunk
        match indexOf? blankLine all with
        | some position =>
            .complete (all.take (position + blankLine.length))
              (all.drop (position + blankLine.length)) later
        | none => readHeadersFrom all later

def readHeaders (chunks : List Bytes) : HeaderRead := readHeadersFrom [] chunks

/-- The buffer with the arrived bytes written over its start; none of it is lost when it is short. -/
def fill (buffer arrived : Bytes) : Bytes :=
  arrived.take buffer.length ++ buffer.drop arrived.length

def fillsUp (buffer arrived : Bytes) : Bool := buffer.length ≤ arrived.length

def readAll (chunks : List Bytes) : Bytes := chunks.flatten

def chunked (size : Nat) (data : Bytes) : List Bytes :=
  if _h : size = 0 ∨ data.length ≤ size then (if data.isEmpty then [] else [data])
  else data.take size :: chunked size (data.drop size)
termination_by data.length
decreasing_by
  simp only [List.length_drop]
  omega

end EndpointPreview.Http
