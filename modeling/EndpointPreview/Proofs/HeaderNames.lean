import Mathlib.Data.Finset.Card
import Mathlib.Order.Defs.Unbundled
import EndpointPreview.Proofs.DeclaredLengths

/-!
Header names without regard to case. Names are compared byte by byte in lower case, which orders
them weakly: names that differ only in case are one name, and the headers are a table from lower
case names to values. An entry is spelled as its name was first written and has the value that was
last assigned.
-/

namespace EndpointPreview.Table

section Forms

variable {Key Form Value : Type} {less : Form → Form → Bool} (form : Key → Form)

theorem weakOrder_byForm (order : Orders less) :
    IsStrictWeakOrder Key (fun a b => byForm less form a b = true) where
  irrefl a := by
    rw [byForm, order.irrefl]
    exact Bool.false_ne_true
  trans _ _ _ before after := order.trans before after
  incomp_trans a b c first second := by
    simp only [Bool.not_eq_true] at first second ⊢
    have same : form a = form b := order.total first.1 first.2
    rw [byForm, byForm] at second ⊢
    rwa [same]

theorem sameKey_byForm (order : Orders less) (a b : Key) :
    sameKey (byForm less form) a b = true ↔ form a = form b := sameKey_iff order (form a) (form b)

theorem formed_ofList (less : Form → Form → Bool) (assignments : List (Key × Value)) :
    formed form (ofList (byForm less form) assignments) = ofList less (formed form assignments) :=
  formed_setAll less form assignments []

theorem sorted_byForm (order : Orders less) (assignments : List (Key × Value)) :
    Sorted (byForm less form) (ofList (byForm less form) assignments) := by
  have sorted : Sorted less (ofList less (formed form assignments)) :=
    sorted_setAll order _ [] List.Pairwise.nil
  rw [← formed_ofList] at sorted
  exact List.pairwise_map.mp sorted

/-- The keys of a table are those that were assigned. -/
theorem mem_keys_ofList [BEq Form] [LawfulBEq Form] (order : Orders less) (key : Form)
    (assignments : List (Form × Value)) :
    key ∈ (ofList less assignments).map Prod.fst ↔ key ∈ assignments.map Prod.fst := by
  constructor
  · intro member
    obtain ⟨entry, inside, rfl⟩ := List.mem_map.mp member
    rcases mem_setAll order assignments [] entry inside with assigned | nothing
    · exact List.mem_map_of_mem assigned
    · cases nothing
  · intro member
    obtain ⟨entry, inside, rfl⟩ := List.mem_map.mp member
    have found := find?_ofList order entry.1 assignments
    cases last : assignments.reverse.lookup entry.1 with
    | none =>
        have absent := List.lookup_eq_none_iff.mp last entry (List.mem_reverse.mpr inside)
        simp at absent
    | some value =>
        rw [last] at found
        exact List.mem_map.mpr ⟨_, mem_of_find? order entry.1 value _ found, rfl⟩

/-- A table has an entry for each form of a key. -/
theorem length_byForm [DecidableEq Form] (order : Orders less) (assignments : List (Key × Value)) :
    (ofList (byForm less form) assignments).length =
      (assignments.map fun entry => form entry.1).toFinset.card := by
  have distinct := keys_nodup order (ofList less (formed form assignments))
    (sorted_setAll order _ [] List.Pairwise.nil)
  have forms : (formed form assignments).map Prod.fst = assignments.map fun entry => form entry.1 :=
    List.map_map
  have same : ((ofList less (formed form assignments)).map Prod.fst).toFinset =
      (assignments.map fun entry => form entry.1).toFinset := by
    ext key
    rw [List.mem_toFinset, List.mem_toFinset, mem_keys_ofList order, forms]
  rw [← same, List.toFinset_card_of_nodup distinct, List.length_map, ← formed_ofList, formed,
    List.length_map]

variable [BEq Form] [LawfulBEq Form]

def hasForm (key : Key) (entry : Key × Value) : Bool := form entry.1 == form key

def firstWithLast : List (Key × Value) → Option (Key × Value)
  | [] => none
  | first :: more => some (first.1, (more.getLastD first).2)

theorem find_below (order : Orders less) (key : Key) (table : List (Key × Value))
    (below : ∀ entry ∈ table, less (form key) (form entry.1) = true) :
    table.find? (hasForm form key) = none := by
  refine List.find?_eq_none.mpr fun entry member same => ?_
  have after := below entry member
  rw [beq_iff_eq.mp same, order.irrefl] at after
  cases after

-- In a table in order the entry of a form is the only one of that form.
theorem find_own (order : Orders less) (entry : Key × Value) (table : List (Key × Value))
    (sorted : Sorted (byForm less form) table) (member : entry ∈ table) :
    table.find? (hasForm form entry.1) = some entry := by
  induction table with
  | nil => cases member
  | cons first rest ih =>
      obtain ⟨below, rest_sorted⟩ := List.pairwise_cons.mp sorted
      rcases List.mem_cons.mp member with rfl | inside
      · exact List.find?_cons_of_pos (beq_self_eq_true _)
      · have before : less (form first.1) (form entry.1) = true := below entry inside
        have other : ¬ hasForm form entry.1 first = true := by
          intro same
          rw [beq_iff_eq.mp same, order.irrefl] at before
          cases before
        rw [List.find?_cons_of_neg other, ih rest_sorted inside]

theorem find_set_other (order : Orders less) (key other : Key) (value : Value)
    (table : List (Key × Value)) (different : form key ≠ form other) :
    (set (byForm less form) key value table).find? (hasForm form other) =
      table.find? (hasForm form other) := by
  have passed (entry : Key × Value) (same : form entry.1 = form key) :
      ¬ hasForm form other entry = true := by
    rwa [hasForm, beq_iff_eq, same]
  induction table with
  | nil => exact List.find?_cons_of_neg (passed (key, value) rfl)
  | cons entry rest ih =>
      obtain ⟨first, old⟩ := entry
      rw [set, byForm, byForm]
      by_cases before : less (form key) (form first) = true
      · rw [if_pos before]
        exact List.find?_cons_of_neg (passed (key, value) rfl)
      · rw [if_neg before]
        by_cases after : less (form first) (form key) = true
        · rw [if_pos after, List.find?_cons, ih, List.find?_cons]
        · have same : form first = form key :=
            order.total (by simpa using after) (by simpa using before)
          rw [if_neg after, List.find?_cons_of_neg (passed (first, value) same),
            List.find?_cons_of_neg (passed (first, old) same)]

/-- An assignment keeps the spelling of a key whose form is there. -/
theorem find_set_own (order : Orders less) (key : Key) (value : Value)
    (table : List (Key × Value)) (sorted : Sorted (byForm less form) table) :
    (set (byForm less form) key value table).find? (hasForm form key) =
      some (((table.find? (hasForm form key)).map Prod.fst).getD key, value) := by
  induction table with
  | nil => exact List.find?_cons_of_pos (beq_self_eq_true _)
  | cons entry rest ih =>
      obtain ⟨first, old⟩ := entry
      obtain ⟨below, rest_sorted⟩ := List.pairwise_cons.mp sorted
      rw [set, byForm, byForm]
      by_cases before : less (form key) (form first) = true
      · have above : ∀ entry ∈ (first, old) :: rest, less (form key) (form entry.1) = true :=
          List.forall_mem_cons.mpr
            ⟨before, fun entry member => order.trans before (below entry member)⟩
        have absent := find_below form order key ((first, old) :: rest) above
        rw [if_pos before, absent]
        exact List.find?_cons_of_pos (beq_self_eq_true _)
      · rw [if_neg before]
        by_cases after : less (form first) (form key) = true
        · have other : ¬ hasForm form key (first, old) = true := by
            intro same
            rw [beq_iff_eq.mp same, order.irrefl] at after
            cases after
          rw [if_pos after, List.find?_cons_of_neg other, ih rest_sorted,
            List.find?_cons_of_neg other]
        · have same : form first = form key :=
            order.total (by simpa using after) (by simpa using before)
          have own (kept : Value) : hasForm form key (first, kept) = true := beq_iff_eq.mpr same
          rw [if_neg after, List.find?_cons_of_pos (own value), List.find?_cons_of_pos (own old)]
          rfl

/-- The entry of a form has the first spelling and the last value. -/
theorem find_ofList (order : Orders less) (key : Key) (assignments : List (Key × Value)) :
    (ofList (byForm less form) assignments).find? (hasForm form key) =
      firstWithLast (assignments.filter (hasForm form key)) := by
  induction assignments using List.reverseRecOn with
  | nil => rfl
  | append_singleton earlier last ih =>
      have made : ofList (byForm less form) (earlier ++ [last]) =
          set (byForm less form) last.1 last.2 (ofList (byForm less form) earlier) :=
        List.foldl_append ..
      rw [made, List.filter_append]
      by_cases same : form last.1 = form key
      · have alike : (hasForm form last.1 : Key × Value → Bool) = hasForm form key :=
          funext fun entry => by rw [hasForm, hasForm, same]
        have kept : [last].filter (hasForm form key) = [last] :=
          List.filter_cons_of_pos (beq_iff_eq.mpr same)
        rw [← alike] at ih kept ⊢
        rw [find_set_own form order _ _ _ (sorted_byForm form order earlier), ih, kept]
        cases earlier.filter (hasForm form last.1) with
        | nil => rfl
        | cons first more => simp [firstWithLast]
      · have dropped : [last].filter (hasForm form key) = [] :=
          List.filter_cons_of_neg (by simpa [hasForm] using same)
        rw [find_set_other form order _ _ _ _ same, ih, dropped, List.append_nil]

theorem mem_byForm (order : Orders less) (entry : Key × Value) (assignments : List (Key × Value)) :
    entry ∈ ofList (byForm less form) assignments ↔
      firstWithLast (assignments.filter (hasForm form entry.1)) = some entry := by
  rw [← find_ofList form order]
  exact ⟨find_own form order entry _ (sorted_byForm form order assignments),
    List.mem_of_find?_eq_some⟩

end Forms

end EndpointPreview.Table

namespace EndpointPreview.Text

/-- Two texts byte by byte: the first two bytes of which one comes before the other decide, and
where none do the shorter text comes first. -/
def comesBefore (less : UInt8 → UInt8 → Bool) : Bytes → Bytes → Bool
  | _, [] => false
  | [], _ :: _ => true
  | a :: left, b :: right => less a b || (!less b a && comesBefore less left right)

theorem precedes_lex (a b : Bytes) : precedes a b = true ↔ List.Lex (· < ·) a b := by
  induction a generalizing b with
  | nil => cases b <;> simp [precedes]
  | cons first left ih =>
      cases b with
      | nil => simp [precedes]
      | cons second right =>
          rw [List.cons_lex_cons_iff, precedes, Bool.or_eq_true, Bool.and_eq_true,
            decide_eq_true_eq, beq_iff_eq, ih]

end EndpointPreview.Text

namespace EndpointPreview.Http.Headers

open Text

/-- Names are compared as they are, each byte in lower case. -/
theorem nameLess_bytewise (a b : Bytes) :
    nameLess a b = comesBefore (fun x y => toLower x < toLower y) a b := by
  induction a generalizing b with
  | nil => cases b <;> rfl
  | cons first left ih =>
      cases b with
      | nil => rfl
      | cons second right =>
          have parts : nameLess (first :: left) (second :: right) =
              (decide (toLower first < toLower second) ||
                (toLower first == toLower second && nameLess left right)) := rfl
          rw [parts, comesBefore, ih]
          by_cases before : toLower first < toLower second
          · simp [before]
          · have same : (toLower first == toLower second) =
                !decide (toLower second < toLower first) := by
              rw [Bool.eq_iff_iff, beq_iff_eq, Bool.not_eq_true', decide_eq_false_iff_not]
              constructor
              · intro same
                rw [same]
                exact UInt8.lt_irrefl _
              · intro after
                exact UInt8.le_antisymm (UInt8.not_lt.mp after) (UInt8.not_lt.mp before)
            rw [same]

theorem get_ofList (name : Bytes) (assignments : Headers) :
    get? name (ofList assignments) =
      ((assignments.filter fun entry => lowercase entry.1 == lowercase name).getLast?).map
        Prod.snd := by
  have found := Table.find?_ofList_formed precedes lowercase precedes_orders name assignments
  rw [← List.getLast?_map]
  refine found.trans (congrArg List.getLast? ?_)
  rw [← List.filterMap_eq_map, List.filterMap_filter]
  rfl

theorem ofList_sorted (assignments : Headers) :
    (ofList assignments).Pairwise fun entry later =>
      List.Lex (· < ·) (lowercase entry.1) (lowercase later.1) :=
  (Table.sorted_byForm lowercase precedes_orders assignments).imp fun before =>
    (precedes_lex _ _).mp before

/-- Headers are a table of names in lower case. The order of names is a strict weak one, in which
names are one when they are the same in lower case. After any assignments a name in any case has
the value that was last assigned to it in any case; there are as many entries as names in lower
case, and they stand in the order of these; and an entry has the name as it was first written with
the value that was last assigned. -/
theorem ofList_caseless (assignments : Headers) :
    (∀ a b, nameLess a b = comesBefore (fun x y => toLower x < toLower y) a b) ∧
      IsStrictWeakOrder Bytes (fun a b => nameLess a b = true) ∧
      (∀ a b, (nameLess a b = false ∧ nameLess b a = false) ↔ lowercase a = lowercase b) ∧
      (∀ name, get? name (ofList assignments) =
        ((assignments.filter fun entry => lowercase entry.1 == lowercase name).getLast?).map
          Prod.snd) ∧
      (ofList assignments).length =
        (assignments.map fun entry => lowercase entry.1).toFinset.card ∧
      ((ofList assignments).Pairwise fun entry later =>
        List.Lex (· < ·) (lowercase entry.1) (lowercase later.1)) ∧
      ∀ entry, entry ∈ ofList assignments ↔
        Table.firstWithLast
          (assignments.filter fun other => lowercase other.1 == lowercase entry.1) =
            some entry := by
  refine ⟨nameLess_bytewise, Table.weakOrder_byForm lowercase precedes_orders, fun a b => ?same,
    fun name => get_ofList name assignments,
    Table.length_byForm lowercase precedes_orders assignments, ofList_sorted assignments,
    fun entry => Table.mem_byForm lowercase precedes_orders entry assignments⟩
  case same =>
    have same := Table.sameKey_byForm lowercase precedes_orders a b
    rwa [Table.sameKey, Bool.and_eq_true, Bool.not_eq_true', Bool.not_eq_true'] at same

example : ofList [(ascii "ETag", ascii "1"), (ascii "Age", ascii "2"), (ascii "etag", ascii "3")] =
    [(ascii "Age", ascii "2"), (ascii "ETag", ascii "3")] := by decide

end EndpointPreview.Http.Headers
