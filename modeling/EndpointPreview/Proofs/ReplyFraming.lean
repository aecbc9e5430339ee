import EndpointPreview.Control.Rpc
import EndpointPreview.Proofs.HeaderBlocks

/-!
Replies of the control service on the wire. A client reads back the status and the whole body of a
reply, with the length that was declared for it.
-/

namespace EndpointPreview.Http

open Text

/-- A response is read from its rows and its body. -/
theorem Response.parse_block (first : Bytes) (rows : List Bytes) (last body : Bytes)
    (all : ∀ row ∈ first :: rows ++ [last], IsRow row) (status : Int) (reason : Bytes)
    (line : statusOf? first = some (status, reason)) :
    Response.parse (block (first :: rows ++ [last]) ++ lineEnd ++ body) =
      .ok
        { status, statusText := reason
          headers := Headers.ofList ((rows ++ [last]).filterMap headerOf?)
          body := cutBody (contentLength? (block (first :: rows ++ [last]) ++ lineEnd)) body } := by
  have cut := cut_block (first :: rows) last body all
  have lined := lines_block_last (first :: rows) last all
  have whole : block (first :: rows) ++ last ++ blankLine =
      block (first :: rows ++ [last]) ++ lineEnd := by
    have joined := block_concat (first :: rows) last []
    rw [List.append_nil, List.append_nil] at joined
    exact joined.symm
  unfold Response.parse
  rw [cut]
  dsimp only
  rw [lined, whole, List.cons_append, List.headD_cons, line, List.drop_one, List.tail_cons]

end EndpointPreview.Http

namespace EndpointPreview.Control.Rpc

open Text Http

def Status.row (status : Status) : Bytes :=
  ascii "HTTP/1.0 " ++ decimal status.code ++ ascii " " ++ status.reason

def typeRow : Bytes := headerRow contentType jsonType

theorem isRow_status (status : Status) : IsRow status.row := by
  cases status <;> exact ⟨by decide, by decide, by decide⟩

theorem statusOf_row (status : Status) :
    statusOf? status.row = some ((status.code : Int), status.reason) := by
  cases status <;> rfl

section Framed

variable (reply : Reply)

def Reply.rows : List Bytes := [reply.status.row, typeRow, lengthRow reply.body.length]

theorem wire_block :
    reply.wire = block (reply.rows ++ [lastRow]) ++ lineEnd ++ reply.body := by
  simp [Reply.wire, Reply.rows, block, Status.row, typeRow, lengthRow, lastRow, headerLine_row]

theorem isRow_reply : ∀ row ∈ reply.rows ++ [lastRow], IsRow row := by
  have typed : IsRow typeRow := ⟨by decide, by decide, by decide⟩
  have last : IsRow lastRow := ⟨by decide, by decide, by decide⟩
  simp [Reply.rows, isRow_status, typed, isRow_lengthRow, last]

theorem headerOf_lengthRow (length : Nat) :
    headerOf? (lengthRow length) = some (ascii "Content-Length", decimal length) := by
  have cut : cutAt? (byte ':') (lengthRow length) =
      some (ascii "Content-Length", 32 :: decimal length) := rfl
  have value : (32 :: decimal length).dropWhile isPadding = decimal length := by
    cases written : decimal length with
    | nil => exact absurd written (decimal_ne_nil length)
    | cons first rest =>
        have digit := AllDigits.decimal length first (by simp [written])
        have solid : isPadding first = false := by
          have space := digit_apart first 32 digit rfl
          have tab := digit_apart first 9 digit rfl
          simp [isPadding, space, tab]
        rw [List.dropWhile_cons_of_pos rfl, List.dropWhile_cons_of_neg (by simp [solid])]
  unfold headerOf?
  rw [cut, Option.map_some]
  dsimp only
  rw [value]

-- The header names stand in this order, whatever the length is.
theorem get_contentLength (length : Bytes) :
    (Headers.ofList [(contentType, jsonType), (ascii "Content-Length", length),
      (ascii "Connection", ascii "close")]).get? (ascii "Content-Length") = some length := rfl

theorem contentLength_reply (small : reply.body.length < 2147483648) :
    contentLength? (block (reply.rows ++ [lastRow]) ++ lineEnd) = some (reply.body.length : Int) := by
  refine contentLength_block [reply.status.row, typeRow] [lastRow] _ small (isRow_reply reply)
    fun row member => ?_
  simp only [List.mem_cons, List.not_mem_nil, or_false] at member
  rcases member with rfl | rfl
  · cases reply.status <;> rfl
  · rfl

/-- What a client reads of a reply. -/
theorem parse_wire (small : reply.body.length < 2147483648) :
    ∃ response, Response.parse reply.wire = .ok response ∧
      response.status = reply.status.code ∧ response.body = reply.body ∧
      response.headers.get? (ascii "Content-Length") = some (decimal reply.body.length) := by
  have headers : ([typeRow, lengthRow reply.body.length] ++ [lastRow]).filterMap headerOf? =
      [(contentType, jsonType), (ascii "Content-Length", decimal reply.body.length),
        (ascii "Connection", ascii "close")] := by
    have type : headerOf? typeRow = some (contentType, jsonType) := rfl
    have last : headerOf? lastRow = some (ascii "Connection", ascii "close") := rfl
    simp [type, headerOf_lengthRow, last]
  have read := Response.parse_block reply.status.row [typeRow, lengthRow reply.body.length] lastRow
    reply.body (isRow_reply reply) reply.status.code reply.status.reason (statusOf_row reply.status)
  have declared : contentLength? (block (reply.status.row :: [typeRow, lengthRow reply.body.length] ++
      [lastRow]) ++ lineEnd) = some (reply.body.length : Int) := contentLength_reply reply small
  have body : cutBody (some (reply.body.length : Int)) reply.body = reply.body := by
    simp [cutBody]
  rw [headers, declared, body] at read
  rw [wire_block]
  exact ⟨_, read, rfl, rfl, get_contentLength _⟩

end Framed

end EndpointPreview.Control.Rpc
