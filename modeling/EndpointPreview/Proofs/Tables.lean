import Mathlib.Data.List.Induction
import EndpointPreview.Table
import EndpointPreview.Text.Bytes

/-!
Tables under an order of their keys: what is found after an assignment or a removal, and
that the keys stay in order, each of them once. A table made of assignments has them all as
its entries, or it costs less than they do.
-/

namespace EndpointPreview.Table

variable {Key Value : Type} {less : Key → Key → Bool}

structure Orders (less : Key → Key → Bool) : Prop where
  irrefl (a : Key) : less a a = false
  trans {a b c : Key} : less a b = true → less b c = true → less a c = true
  total {a b : Key} : less a b = false → less b a = false → a = b

theorem sameKey_iff (order : Orders less) (a b : Key) : sameKey less a b = true ↔ a = b := by
  simp only [sameKey, Bool.and_eq_true, Bool.not_eq_true']
  constructor
  · rintro ⟨after, before⟩
    exact order.total after before
  · rintro rfl
    exact ⟨order.irrefl a, order.irrefl a⟩

section Finding

variable (order : Orders less) (key other : Key) (value : Value) (table : List (Key × Value))
include order

theorem find?_set : find? less key (set less key value table) = some value := by
  have own := (sameKey_iff order key key).mpr rfl
  induction table with
  | nil => rw [set, find?, if_pos own]
  | cons entry rest ih =>
      obtain ⟨first, old⟩ := entry
      unfold set
      by_cases before : less key first = true
      · rw [if_pos before, find?, if_pos own]
      · rw [if_neg before]
        by_cases after : less first key = true
        · have different : ¬ sameKey less key first = true := by simp [sameKey, after]
          rw [if_pos after, find?, if_neg different, ih]
        · have same : sameKey less key first = true := by simp [sameKey, before, after]
          rw [if_neg after, find?, if_pos same]

theorem find?_set_other (different : other ≠ key) :
    find? less other (set less key value table) = find? less other table := by
  have passes : ¬ sameKey less other key = true := by
    rwa [sameKey_iff order]
  induction table with
  | nil => simp [set, find?, passes]
  | cons entry rest ih =>
      obtain ⟨first, old⟩ := entry
      unfold set
      by_cases before : less key first = true
      · rw [if_pos before, find?, if_neg passes]
      · rw [if_neg before]
        by_cases after : less first key = true
        · rw [if_pos after, find?, ih, find?]
        · have same : first = key := order.total (by simpa using after) (by simpa using before)
          subst same
          rw [if_neg after, find?, find?, if_neg passes, if_neg passes]

omit order in
theorem find?_erase : find? less key (erase less key table) = none := by
  induction table with
  | nil => rfl
  | cons entry rest ih =>
      obtain ⟨first, old⟩ := entry
      unfold erase
      by_cases same : sameKey less key first = true
      · rw [if_pos same, ih]
      · rw [if_neg same, find?, if_neg same, ih]

theorem find?_erase_other (different : other ≠ key) :
    find? less other (erase less key table) = find? less other table := by
  induction table with
  | nil => rfl
  | cons entry rest ih =>
      obtain ⟨first, old⟩ := entry
      unfold erase
      by_cases same : sameKey less key first = true
      · have passes : ¬ sameKey less other first = true := by
          rw [sameKey_iff order] at same ⊢
          rwa [← same]
        rw [if_pos same, ih, find?, if_neg passes]
      · rw [if_neg same, find?, ih, find?]

theorem mem_of_find? (found : find? less key table = some value) : (key, value) ∈ table := by
  induction table with
  | nil => cases found
  | cons entry rest ih =>
      obtain ⟨first, old⟩ := entry
      unfold find? at found
      by_cases same : sameKey less key first = true
      · rw [if_pos same] at found
        cases found
        rw [(sameKey_iff order key first).mp same]
        exact List.mem_cons_self
      · rw [if_neg same] at found
        exact List.mem_cons_of_mem _ (ih found)

end Finding

def Sorted (less : Key → Key → Bool) (table : List (Key × Value)) : Prop :=
  table.Pairwise fun entry later => less entry.1 later.1 = true

instance (less : Key → Key → Bool) (table : List (Key × Value)) : Decidable (Sorted less table) :=
  inferInstanceAs (Decidable (table.Pairwise _))

theorem mem_set (order : Orders less) (key : Key) (value : Value) (table : List (Key × Value)) (entry : Key × Value)
    (member : entry ∈ set less key value table) : entry = (key, value) ∨ entry ∈ table := by
  induction table with
  | nil => exact .inl (List.mem_singleton.mp member)
  | cons first rest ih =>
      unfold set at member
      by_cases before : less key first.1 = true
      · rw [if_pos before] at member
        exact List.mem_cons.mp member
      · rw [if_neg before] at member
        by_cases after : less first.1 key = true
        · rw [if_pos after] at member
          rcases List.mem_cons.mp member with rfl | later
          · exact .inr List.mem_cons_self
          · exact (ih later).imp_right (List.mem_cons_of_mem _)
        · rw [if_neg after] at member
          have same : first.1 = key := order.total (by simpa using after) (by simpa using before)
          rcases List.mem_cons.mp member with rfl | kept
          · rw [same]
            exact .inl rfl
          · exact .inr (List.mem_cons_of_mem _ kept)

theorem set_sorted (order : Orders less) (key : Key) (value : Value) (table : List (Key × Value))
    (sorted : Sorted less table) : Sorted less (set less key value table) := by
  induction table with
  | nil => exact List.pairwise_singleton _ _
  | cons entry rest ih =>
      obtain ⟨first, old⟩ := entry
      obtain ⟨below, rest_sorted⟩ := List.pairwise_cons.mp sorted
      unfold set
      by_cases before : less key first = true
      · rw [if_pos before]
        refine List.pairwise_cons.mpr ⟨?_, sorted⟩
        intro later member
        rcases List.mem_cons.mp member with rfl | inside
        · exact before
        · exact order.trans before (below later inside)
      · rw [if_neg before]
        by_cases after : less first key = true
        · rw [if_pos after]
          refine List.pairwise_cons.mpr ⟨?_, ih rest_sorted⟩
          intro later member
          rcases mem_set order key value rest later member with rfl | kept
          · exact after
          · exact below later kept
        · rw [if_neg after]
          exact List.pairwise_cons.mpr ⟨below, rest_sorted⟩

theorem erase_sublist (key : Key) (table : List (Key × Value)) :
    (erase less key table).Sublist table := by
  induction table with
  | nil => exact List.Sublist.slnil
  | cons entry rest ih =>
      obtain ⟨first, old⟩ := entry
      unfold erase
      by_cases same : sameKey less key first = true
      · rw [if_pos same]
        exact ih.cons _
      · rw [if_neg same]
        exact ih.cons_cons _

theorem erase_sorted (key : Key) (table : List (Key × Value)) (sorted : Sorted less table) :
    Sorted less (erase less key table) := sorted.sublist (erase_sublist key table)

-- In a sorted table every entry is the one that is found.
theorem find?_of_mem (order : Orders less) (key : Key) (value : Value) (table : List (Key × Value))
    (sorted : Sorted less table) (member : (key, value) ∈ table) :
    find? less key table = some value := by
  induction table with
  | nil => cases member
  | cons entry rest ih =>
      obtain ⟨first, old⟩ := entry
      obtain ⟨below, rest_sorted⟩ := List.pairwise_cons.mp sorted
      unfold find?
      rcases List.mem_cons.mp member with own | inside
      · cases own
        rw [if_pos ((sameKey_iff order key key).mpr rfl)]
      · have after : less first key = true := below _ inside
        have different : ¬ sameKey less key first = true := by simp [sameKey, after]
        rw [if_neg different]
        exact ih rest_sorted inside

theorem keys_nodup (order : Orders less) (table : List (Key × Value))
    (sorted : Sorted less table) : (table.map Prod.fst).Nodup := by
  apply List.pairwise_map.mpr
  apply sorted.imp
  intro entry later before same
  rw [same, order.irrefl] at before
  cases before

theorem eq_nil_of_find? (order : Orders less) (table : List (Key × Value))
    (nothing : ∀ key, find? less key table = none) : table = [] := by
  cases table with
  | nil => rfl
  | cons entry rest =>
      obtain ⟨first, value⟩ := entry
      have missed := nothing first
      rw [find?, if_pos ((sameKey_iff order first first).mpr rfl)] at missed
      cases missed

section Assigning

variable (order : Orders less)
include order

theorem mem_setAll (assignments table : List (Key × Value)) (entry : Key × Value)
    (member : entry ∈ setAll less assignments table) : entry ∈ assignments ∨ entry ∈ table := by
  induction assignments generalizing table with
  | nil => exact .inr member
  | cons first later ih =>
      rcases ih (set less first.1 first.2 table) member with assigned | made
      · exact .inl (List.mem_cons_of_mem _ assigned)
      · rcases mem_set order first.1 first.2 table entry made with rfl | kept
        · exact .inl List.mem_cons_self
        · exact .inr kept

/-- The last assignment to a key tells its value. -/
theorem find?_setAll [BEq Key] [LawfulBEq Key] (key : Key) (assignments table : List (Key × Value)) :
    find? less key (setAll less assignments table) =
      (assignments.reverse.lookup key).or (find? less key table) := by
  induction assignments using List.reverseRecOn with
  | nil => rfl
  | append_singleton earlier last ih =>
      obtain ⟨own, value⟩ := last
      have made : setAll less (earlier ++ [(own, value)]) table =
          set less own value (setAll less earlier table) := List.foldl_append ..
      rw [made, List.reverse_concat, List.lookup_cons]
      by_cases same : key = own
      · subst same
        rw [find?_set order, beq_self_eq_true]
        rfl
      · have different : (key == own) = false := beq_eq_false_iff_ne.mpr same
        rw [find?_set_other order own key value _ same, ih, different]

theorem find?_ofList [BEq Key] [LawfulBEq Key] (key : Key) (assignments : List (Key × Value)) :
    find? less key (ofList less assignments) = assignments.reverse.lookup key := by
  rw [ofList, find?_setAll order, find?, Option.or_none]

theorem sorted_setAll (assignments table : List (Key × Value)) (sorted : Sorted less table) :
    Sorted less (setAll less assignments table) := by
  induction assignments generalizing table with
  | nil => exact sorted
  | cons first later ih => exact ih _ (set_sorted order first.1 first.2 table sorted)

theorem set_last (key : Key) (value : Value) (table : List (Key × Value))
    (below : ∀ entry ∈ table, less entry.1 key = true) :
    set less key value table = table ++ [(key, value)] := by
  induction table with
  | nil => rfl
  | cons entry rest ih =>
      obtain ⟨own, further⟩ := List.forall_mem_cons.mp below
      have after : ¬ less key entry.1 = true := by
        intro before
        have loop := order.trans own before
        rw [order.irrefl] at loop
        cases loop
      unfold set
      rw [if_neg after, if_pos own, ih further, List.cons_append]

/-- Entries that follow a table in order are added to it as they are. -/
theorem setAll_sorted (assignments table : List (Key × Value))
    (sorted : Sorted less (table ++ assignments)) :
    setAll less assignments table = table ++ assignments := by
  induction assignments generalizing table with
  | nil => exact (List.append_nil table).symm
  | cons first later ih =>
      have below : ∀ entry ∈ table, less entry.1 first.1 = true := fun entry member =>
        (List.pairwise_append.mp sorted).2.2 entry member first List.mem_cons_self
      have regrouped : table ++ first :: later = table ++ [(first.1, first.2)] ++ later := by simp
      have next := ih (table ++ [(first.1, first.2)]) (regrouped ▸ sorted)
      have made : setAll less (first :: later) table =
          setAll less later (set less first.1 first.2 table) := rfl
      rw [made, set_last order first.1 first.2 table below, next, regrouped]

/-- A table is the table of its own entries. -/
theorem ofList_ofList (assignments : List (Key × Value)) :
    ofList less (ofList less assignments) = ofList less assignments :=
  setAll_sorted order (ofList less assignments) []
    (sorted_setAll order assignments [] List.Pairwise.nil)

end Assigning

theorem set_perm (less : Key → Key → Bool) (key : Key) (value : Value)
    (table : List (Key × Value)) :
    (set less key value table).Perm ((key, value) :: table) ∨
      ∃ first old rest, table.Perm ((first, old) :: rest) ∧
        (set less key value table).Perm ((first, value) :: rest) := by
  induction table with
  | nil => exact .inl (.refl _)
  | cons entry rest ih =>
      unfold set
      by_cases before : less key entry.1 = true
      · rw [if_pos before]
        exact .inl (.refl _)
      · rw [if_neg before]
        by_cases after : less entry.1 key = true
        · rw [if_pos after]
          rcases ih with kept | ⟨first, old, others, own, replaced⟩
          · exact .inl ((kept.cons entry).trans (.swap _ _ _))
          · refine .inr ⟨first, old, entry :: others, ?_, ?_⟩
            · exact (own.cons entry).trans (.swap _ _ _)
            · exact (replaced.cons entry).trans (.swap _ _ _)
        · rw [if_neg after]
          exact .inr ⟨entry.1, entry.2, rest, .refl _, .refl _⟩

def cost (price : Value → Nat) : List (Key × Value) → Nat
  | [] => 0
  | entry :: rest => price entry.2 + cost price rest

theorem cost_perm (price : Value → Nat) {table other : List (Key × Value)}
    (same : table.Perm other) : cost price table = cost price other := by
  induction same with
  | nil => rfl
  | cons entry _ ih => rw [cost, cost, ih]
  | swap first second rest =>
      simp only [cost]
      omega
  | trans _ _ before after => exact before.trans after

theorem setAll_cost (less : Key → Key → Bool) (price : Value → Nat)
    (positive : ∀ value, 0 < price value) (assignments table : List (Key × Value)) :
    cost price (setAll less assignments table) ≤ cost price table + cost price assignments ∧
      (cost price (setAll less assignments table) = cost price table + cost price assignments →
        (setAll less assignments table).Perm (assignments ++ table)) := by
  induction assignments generalizing table with
  | nil => exact ⟨Nat.le_refl _, fun _ => .refl _⟩
  | cons entry assignments ih =>
      obtain ⟨bound, kept⟩ := ih (set less entry.1 entry.2 table)
      have next : setAll less (entry :: assignments) table =
          setAll less assignments (set less entry.1 entry.2 table) := rfl
      have whole : cost price (entry :: assignments) =
          price entry.2 + cost price assignments := rfl
      rw [next, whole]
      rcases set_perm less entry.1 entry.2 table with
        new | ⟨first, old, rest, own, replaced⟩
      · have added : cost price (set less entry.1 entry.2 table) =
            price entry.2 + cost price table := cost_perm price new
        refine ⟨by omega, fun full => ?_⟩
        have perm := kept (by omega)
        exact (perm.trans (new.append_left assignments)).trans List.perm_middle
      · have before : cost price table = price old + cost price rest := cost_perm price own
        have after : cost price (set less entry.1 entry.2 table) =
            price entry.2 + cost price rest := cost_perm price replaced
        have lost := positive old
        exact ⟨by omega, fun full => by omega⟩

-- A table costs less than its assignments as soon as one of them is lost.
theorem ofList_cost (less : Key → Key → Bool) (price : Value → Nat)
    (positive : ∀ value, 0 < price value) (assignments : List (Key × Value)) :
    cost price (ofList less assignments) ≤ cost price assignments ∧
      (cost price (ofList less assignments) = cost price assignments →
        (ofList less assignments).Perm assignments) := by
  have all := setAll_cost less price positive assignments []
  rw [List.append_nil] at all
  have empty : cost price ([] : List (Key × Value)) = 0 := rfl
  rw [empty, Nat.zero_add] at all
  exact all

end EndpointPreview.Table

namespace EndpointPreview.Text

theorem precedes_orders : Table.Orders precedes where
  irrefl text := by
    induction text with
    | nil => rfl
    | cons b rest ih => simp [precedes, ih]
  trans {first second third} before after := by
    induction first generalizing second third with
    | nil =>
        cases second with
        | nil => cases before
        | cons _ _ =>
            cases third with
            | nil => cases after
            | cons _ _ => rfl
    | cons a first ih =>
        cases second with
        | nil => cases before
        | cons b second =>
            cases third with
            | nil => cases after
            | cons c third =>
                simp only [precedes, Bool.or_eq_true, decide_eq_true_eq, Bool.and_eq_true,
                  beq_iff_eq] at before after ⊢
                rcases before with less | ⟨rfl, inner⟩
                · rcases after with more | ⟨rfl, _⟩
                  · exact .inl (UInt8.lt_trans less more)
                  · exact .inl less
                · rcases after with more | ⟨rfl, later⟩
                  · exact .inl more
                  · exact .inr ⟨rfl, ih inner later⟩
  total {first second} after before := by
    induction first generalizing second with
    | nil =>
        cases second with
        | nil => rfl
        | cons _ _ => cases after
    | cons a first ih =>
        cases second with
        | nil => cases before
        | cons b second =>
            simp only [precedes, Bool.or_eq_false_iff, decide_eq_false_iff_not] at after before
            have same : a = b := UInt8.le_antisymm (UInt8.not_lt.mp before.1) (UInt8.not_lt.mp after.1)
            subst same
            rw [beq_self_eq_true, Bool.true_and] at after before
            rw [ih after.2 before.2]

end EndpointPreview.Text
