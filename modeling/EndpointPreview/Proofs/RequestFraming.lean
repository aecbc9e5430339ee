import EndpointPreview.Control.Rpc
import EndpointPreview.Proofs.HeaderBlocks
import EndpointPreview.Proofs.LocalUrls

/-!
Requests to the control service. A POST whose headers keep to their rows is written as one block,
the declared length among its rows, and its body; the service reads the method, the path and
exactly that body back from the bytes, wherever the chunks are cut.
-/

namespace EndpointPreview.Http

open Text

structure IsHeader (entry : Bytes × Bytes) : Prop where
  undivided : byte ':' ∉ entry.1
  unreturned : carriageReturn ∉ entry.1 ∧ carriageReturn ∉ entry.2
  single : newline ∉ entry.1 ∧ newline ∉ entry.2
  other : lowercase entry.1 ≠ ascii "content-length"

theorem lowercase_append (left right : Bytes) :
    lowercase (left ++ right) = lowercase left ++ lowercase right := List.map_append

-- Up to its first colon a row is the name of the header, in any case.
theorem beforeColon_headerRow (name value : Bytes) (undivided : byte ':' ∉ name) :
    (lowercase (headerRow name value)).takeWhile (· != byte ':') = lowercase name := by
  have inside : ∀ b ∈ lowercase name, (b != byte ':') = true := by
    intro b member
    obtain ⟨own, written, rfl⟩ := List.mem_map.mp member
    rw [bne_iff_ne]
    intro same
    rw [toLower_other own (by rw [same]; rfl)] at same
    exact undivided (same ▸ written)
  have split : lowercase (headerRow name value) =
      lowercase name ++ byte ':' :: lowercase (32 :: value) := by
    rw [headerRow, List.append_assoc, lowercase_append]
    rfl
  rw [split, List.takeWhile_append_of_pos inside, List.takeWhile_cons_of_neg (by decide),
    List.append_nil]

theorem declaresLength_headerRow (entry : Bytes × Bytes) (isHeader : IsHeader entry) :
    declaresLength (headerRow entry.1 entry.2) = false := by
  rw [Bool.eq_false_iff]
  intro declared
  obtain ⟨rest, whole⟩ := List.isPrefixOf_iff_prefix.mp declared
  have name := beforeColon_headerRow entry.1 entry.2 isHeader.undivided
  rw [← whole] at name
  exact isHeader.other name.symm

def Request.frontRows (request : Request) (url : Url) : List Bytes :=
  (request.method ++ ascii " " ++ url.target ++ ascii " HTTP/1.0") ::
    headerRow (ascii "Host") (url.host ++ byte ':' :: decimal url.effectivePort) ::
    request.headers.map fun entry => headerRow entry.1 entry.2

theorem headText_block (request : Request) (url : Url) (post : request.method = ascii "POST") :
    request.headText url =
      block (request.frontRows url ++ [lengthRow request.body.length] ++ [lastRow]) ++ lineEnd := by
  have declared : (!request.body.isEmpty || request.method == ascii "POST") = true := by simp [post]
  simp [Request.headText, Request.frontRows, block, declared, headerLine_row, lengthRow, lastRow,
    List.flatMap_map]

end EndpointPreview.Http

namespace EndpointPreview.Control.Rpc

open Text Http

structure IsPost (request : Request) (port : Nat) : Prop where
  method : request.method = ascii "POST"
  url : request.url = Url.onPort (ascii "127.0.0.1") port (ascii "/rpc")
  low : 0 < port
  high : port ≤ 65535
  headers : ∀ entry ∈ request.headers, IsHeader entry
  small : request.body.length < 2147483648

def target (port : Nat) : Url := ⟨ascii "http", ascii "127.0.0.1", some port, ascii "/rpc", []⟩

theorem parse_target (port : Nat) (low : 0 < port) (high : port ≤ 65535) :
    Url.parse (Url.onPort (ascii "127.0.0.1") port (ascii "/rpc")) = .ok (target port) := by
  have stops : ∀ b, (ascii "/rpc").head? = some b → Url.endsAuthority b = true := by
    rintro b ⟨⟩
    rfl
  exact Url.parse_written (ascii "127.0.0.1") port (ascii "/rpc") (by decide) stops
    (ascii "127.0.0.1") low high (Url.hostAndPort_plain _ port (by decide))

theorem bodyOf_whole (body : Bytes) : bodyOf (some (body.length : Int)) body = some body := by
  unfold bodyOf
  dsimp only
  split
  · rename_i empty
    rw [List.length_eq_zero_iff.mp (by omega : body.length = 0)]
  · rw [Int.toNat_natCast, if_pos (Nat.le_refl _), List.take_length]

/-- The first line of a block is its first row. -/
theorem requestLine_block (first : Bytes) (rows : List Bytes) (isRow : IsRow first) :
    requestLine (block (first :: rows) ++ lineEnd) = first := by
  have split : block (first :: rows) ++ lineEnd =
      (first ++ [carriageReturn]) ++ newline :: (block rows ++ lineEnd) := by
    simp [block, lineEnd, carriageReturn, newline]
  have inside : ∀ b ∈ first ++ [carriageReturn], (b != newline) = true := by
    intro b member
    rw [bne_iff_ne]
    rintro rfl
    rcases List.mem_append.mp member with own | last
    · exact isRow.single own
    · exact absurd (List.mem_singleton.mp last) (by decide)
  unfold requestLine
  rw [split, List.takeWhile_append_of_pos inside, List.takeWhile_cons_of_neg (by simp),
    List.append_nil]
  simp [chompReturn]

section Client

variable (request : Request) (port : Nat) (isPost : IsPost request port)
include isPost

theorem wire_post : request.wire =
    .ok (target port, request.headText (target port) ++ request.body) := by
  unfold Request.wire
  rw [isPost.url, parse_target port isPost.low isPost.high]
  rfl

theorem frontRows_post : request.frontRows (target port) =
    ascii "POST /rpc HTTP/1.0" :: headerRow (ascii "Host") (ascii "127.0.0.1:" ++ decimal port) ::
      request.headers.map fun entry => headerRow entry.1 entry.2 := by
  unfold Request.frontRows
  rw [isPost.method]
  rfl

theorem isRow_front : ∀ row ∈ request.frontRows (target port), IsRow row := by
  intro row member
  rw [frontRows_post request port isPost] at member
  rcases List.mem_cons.mp member with rfl | member
  · exact ⟨by decide, by decide, by decide⟩
  · rcases List.mem_cons.mp member with rfl | member
    · refine isRow_headerRow _ _ ⟨by decide, ?_⟩ ⟨by decide, ?_⟩
      · exact List.mem_append.not.mpr (not_or.mpr ⟨by decide, not_mem_decimal _ port rfl⟩)
      · exact List.mem_append.not.mpr (not_or.mpr ⟨by decide, not_mem_decimal _ port rfl⟩)
    · obtain ⟨entry, inside, rfl⟩ := List.mem_map.mp member
      have isHeader := isPost.headers entry inside
      exact isRow_headerRow _ _ isHeader.unreturned isHeader.single

theorem front_undeclared : ∀ row ∈ request.frontRows (target port), declaresLength row = false := by
  intro row member
  rw [frontRows_post request port isPost] at member
  rcases List.mem_cons.mp member with rfl | member
  · rfl
  · rcases List.mem_cons.mp member with rfl | member
    · rfl
    · obtain ⟨entry, inside, rfl⟩ := List.mem_map.mp member
      exact declaresLength_headerRow entry (isPost.headers entry inside)

/-- What the service reads of a request: its method, its path and its whole body, whatever the
bytes of the body are and wherever the chunks of the connection are cut. -/
theorem ofChunks_wire (fits : (request.headText (target port)).length ≤ headerLimit) :
    ∃ bytes, request.wire = .ok (target port, bytes) ∧
      ∀ chunks, readAll chunks = bytes →
        Call.ofChunks chunks = some ⟨ascii "POST", ascii "/rpc", request.body⟩ := by
  refine ⟨_, wire_post request port isPost, fun chunks sent => ?_⟩
  let rows := request.frontRows (target port) ++ [lengthRow request.body.length]
  have all : ∀ row ∈ rows ++ [lastRow], IsRow row := by
    intro row member
    rcases List.mem_append.mp member with member | last
    · rcases List.mem_append.mp member with front | length
      · exact isRow_front request port isPost row front
      · rw [List.mem_singleton.mp length]
        exact isRow_lengthRow request.body.length
    · rw [List.mem_singleton.mp last]
      exact ⟨by decide, by decide, by decide⟩
  have whole := headText_block request (target port) isPost.method
  rw [whole] at sent fits
  obtain ⟨extra, later, read, body⟩ := readHeaders_block rows lastRow request.body all chunks sent fits
  have declared : contentLength? (block (rows ++ [lastRow]) ++ lineEnd) =
      some (request.body.length : Int) := by
    have shape : rows ++ [lastRow] =
        request.frontRows (target port) ++ lengthRow request.body.length :: [lastRow] := by
      simp [rows]
    rw [shape] at all ⊢
    exact contentLength_block _ _ _ isPost.small all (front_undeclared request port isPost)
  have first : requestLine (block (rows ++ [lastRow]) ++ lineEnd) = ascii "POST /rpc HTTP/1.0" := by
    have front := frontRows_post request port isPost
    simp only [rows, front, List.cons_append]
    exact requestLine_block _ _ ⟨by decide, by decide, by decide⟩
  have words : nextWord (ascii "POST /rpc HTTP/1.0") = (ascii "POST", ascii " /rpc HTTP/1.0") := rfl
  have path : (nextWord (ascii " /rpc HTTP/1.0")).1 = ascii "/rpc" := rfl
  unfold Call.ofChunks
  rw [read]
  dsimp only
  rw [first, words, declared, body]
  dsimp only
  rw [bodyOf_whole, Option.map_some, path]

end Client

/-- A request whose header value looks like a header and whose body looks like the end of a block. -/
def misleadingRequest : Request where
  method := ascii "POST"
  url := ascii "http://127.0.0.1:8080/rpc"
  headers := [(ascii "X-Trace", ascii "Content-Length: 3")]
  body := blankLine ++ ascii "POST /other" ++ blankLine

theorem ofChunks_wire_misleading :
    IsPost misleadingRequest 8080 ∧
    (misleadingRequest.headText (target 8080)).length ≤ headerLimit ∧
    ∃ bytes, misleadingRequest.wire = .ok (target 8080, bytes) ∧
      ∀ chunks, readAll chunks = bytes →
        Call.ofChunks chunks = some ⟨ascii "POST", ascii "/rpc", misleadingRequest.body⟩ := by
  have headers : ∀ entry ∈ misleadingRequest.headers, IsHeader entry := by
    intro entry member
    rw [List.mem_singleton.mp member]
    exact ⟨by decide, by decide, by decide, by decide⟩
  have isPost : IsPost misleadingRequest 8080 :=
    ⟨rfl, by decide, by decide, by decide, headers, by decide⟩
  have fits : (misleadingRequest.headText (target 8080)).length ≤ headerLimit := by decide +kernel
  exact ⟨isPost, fits, ofChunks_wire misleadingRequest 8080 isPost fits⟩

end EndpointPreview.Control.Rpc
