import EndpointPreview.Json.Reader
import EndpointPreview.Proofs.Functions
import EndpointPreview.Proofs.WholeLiterals

/-!
What holds of all the strings and whole numbers in a value. A value that is read has strings of
whole characters, none of them longer than the text it was read from, and whole numbers of 64 bits.
-/

namespace EndpointPreview.Json

open Text
open Notation (bind_ok map_ok)

mutual

def Holds (text : Bytes → Prop) (whole : Int → Prop) : Json → Prop
  | .int n => whole n
  | .str content => text content
  | .arr items => ItemsHold text whole items
  | .obj members => MembersHold text whole members
  | _ => True

def ItemsHold (text : Bytes → Prop) (whole : Int → Prop) : List Json → Prop
  | [] => True
  | item :: rest => Holds text whole item ∧ ItemsHold text whole rest

def MembersHold (text : Bytes → Prop) (whole : Int → Prop) : Members → Prop
  | [] => True
  | (key, value) :: rest => text key ∧ Holds text whole value ∧ MembersHold text whole rest

end

theorem itemsHold_iff (text : Bytes → Prop) (whole : Int → Prop) (items : List Json) :
    ItemsHold text whole items ↔ ∀ item ∈ items, item.Holds text whole := by
  induction items with
  | nil => simp [ItemsHold]
  | cons item items ih => simp [ItemsHold, ih]

theorem membersHold_iff (text : Bytes → Prop) (whole : Int → Prop) (members : Members) :
    MembersHold text whole members ↔
      ∀ member ∈ members, text member.1 ∧ member.2.Holds text whole := by
  induction members with
  | nil => simp [MembersHold]
  | cons member members ih => simp [MembersHold, ih, and_assoc]

def Fits (n : Int) : Prop := -Numeral.limit64 ≤ n ∧ n < 2 * Numeral.limit64

def WholesFit (value : Json) : Prop := value.Holds (fun _ => True) Fits

section Every

variable {text other : Bytes → Prop} {whole also : Int → Prop}

mutual

theorem holds_mono (texts : ∀ content, text content → other content)
    (wholes : ∀ n, whole n → also n) : ∀ value : Json, value.Holds text whole → value.Holds other also
  | .null, _ => trivial
  | .bool _, _ => trivial
  | .int n, holds => wholes n holds
  | .float _, _ => trivial
  | .str content, holds => texts content holds
  | .arr items, holds => itemsHold_mono texts wholes items holds
  | .obj members, holds => membersHold_mono texts wholes members holds

theorem itemsHold_mono (texts : ∀ content, text content → other content)
    (wholes : ∀ n, whole n → also n) :
    ∀ items : List Json, ItemsHold text whole items → ItemsHold other also items
  | [], _ => trivial
  | item :: rest, ⟨own, further⟩ =>
      ⟨holds_mono texts wholes item own, itemsHold_mono texts wholes rest further⟩

theorem membersHold_mono (texts : ∀ content, text content → other content)
    (wholes : ∀ n, whole n → also n) :
    ∀ members : Members, MembersHold text whole members → MembersHold other also members
  | [], _ => trivial
  | (key, value) :: rest, ⟨keyHolds, own, further⟩ =>
      ⟨texts key keyHolds, holds_mono texts wholes value own,
        membersHold_mono texts wholes rest further⟩

end

theorem holds_object (members : Members)
    (each : ∀ member ∈ members, text member.1 ∧ member.2.Holds text whole) :
    (object members).Holds text whole := by
  refine (membersHold_iff _ _ _).mpr fun entry member => ?_
  rcases Table.mem_setAll precedes_orders members [] entry member with assigned | none_there
  · exact each entry assigned
  · cases none_there

theorem holds_member (members : Members) (key : Bytes) (value : Json)
    (holds : (Json.obj members).Holds text whole) (found : member? key members = some value) :
    value.Holds text whole :=
  ((membersHold_iff _ _ _).mp holds _
    (Table.mem_of_find? precedes_orders key value members found)).2

end Every

theorem hex4_length (text : Bytes) (point : Nat) (rest : Bytes) (found : hex4? text = some (point, rest)) :
    rest.length + 4 = text.length := by
  unfold hex4? at found
  split at found
  · split at found
    · cases found
      rfl
    · cases found
  · cases found

theorem escapedPoint_length (text : Bytes) (point : Nat) (rest : Bytes)
    (found : escapedPoint? text = some (point, rest)) : rest.length + 4 ≤ text.length := by
  unfold escapedPoint? at found
  split at found
  · cases found
  · rename_i unit after first
    have front := hex4_length text unit after first
    split at found
    · cases found
    split at found
    · split at found
      · rename_i b u later
        split at found
        · split at found
          · rename_i low remaining second
            have back := hex4_length later low remaining second
            split at found
            · rw [Option.some.injEq, Prod.mk.injEq] at found
              rw [← found.2]
              simp only [List.length_cons] at front
              omega
            · cases found
          · cases found
        · cases found
      · cases found
    · rw [Option.some.injEq, Prod.mk.injEq] at found
      rw [← found.2]
      omega

theorem encode_length (point : Nat) : (Utf8.encode point).length ≤ 4 := by
  unfold Utf8.encode
  repeat' split
  all_goals simp

/-- What is read of a string and what follows it are no longer than the text. -/
theorem stringRest_length (made text content rest : Bytes) (steps : Nat)
    (found : stringRest? made steps text = some (content, rest)) :
    content.length + rest.length ≤ made.length + text.length := by
  induction steps generalizing made text with
  | zero => cases found
  | succ steps ih =>
      cases text with
      | nil => cases found
      | cons b later =>
          rw [List.length_cons]
          unfold stringRest? at found
          split at found
          · cases found
            rw [List.length_reverse]
            omega
          split at found
          · cases found
          split at found
          · split at found
            · cases found
            · rename_i mark after
              rw [List.length_cons]
              split at found
              · split at found
                · rename_i point remaining escaped
                  have bound := ih _ _ found
                  have consumed := escapedPoint_length _ _ _ escaped
                  have encoded := encode_length point
                  rw [List.length_append, List.length_reverse] at bound
                  omega
                · cases found
              · split at found
                · have bound := ih _ _ found
                  rw [List.length_cons] at bound
                  omega
                · cases found
          · have bound := ih _ _ found
            rw [List.length_cons] at bound
            omega

def IsTextWithin (limit : Nat) (content : Bytes) : Prop :=
  Utf8.isValid content = true ∧ content.length ≤ limit

theorem string_within (text content rest : Bytes) (found : string? text = some (content, rest)) :
    IsTextWithin text.length content ∧ rest.length ≤ text.length := by
  unfold string? at found
  split at found
  · rename_i b later
    split at found
    · split at found
      · rename_i made after read
        split at found
        · rename_i valid
          cases found
          have bound := stringRest_length [] later _ _ _ read
          simp only [List.length_nil, List.length_cons] at bound ⊢
          exact ⟨⟨valid, by omega⟩, by omega⟩
        · cases found
      · cases found
    · cases found
  · cases found

def ReadWithin (limit : Nat) (value : Json) (rest : Bytes) : Prop :=
  value.Holds (IsTextWithin limit) Fits ∧ rest.length ≤ limit

theorem integer_holds (text : Bytes → Prop) (negative : Bool) (n : Nat) (value : Json)
    (found : integer? negative n = some value) : value.Holds text Fits := by
  unfold integer? at found
  split at found
  · split at found
    · rename_i small
      cases found
      constructor <;> unfold Numeral.limit64 at * <;> omega
    · cases found
  · split at found
    · rename_i small
      cases found
      exact ⟨by unfold Numeral.limit64; omega, small⟩
    · cases found

theorem roundedFloat_holds (text : Bytes → Prop) (negative : Bool) (rounded : Decimal.Rounded)
    (value : Json) (found : roundedFloat negative rounded = .ok value) : value.Holds text Fits := by
  cases rounded <;> cases found <;> trivial

theorem number_holds (text : Bytes → Prop) (negative : Bool) (whole part : Bytes)
    (exponent : Option Int) (value : Json) (found : number negative whole part exponent = .ok value) :
    value.Holds text Fits := by
  unfold number at found
  dsimp only at found
  split at found
  · cases read : integer? negative (Numeral.ofDigits 10 (whole ++ part)) with
    | some own =>
        rw [read] at found
        cases found
        exact integer_holds _ _ _ _ read
    | none =>
        rw [read] at found
        exact roundedFloat_holds _ _ _ _ found
  · exact roundedFloat_holds _ _ _ _ found

theorem dropWhile_length (inClass : UInt8 → Bool) (text : Bytes) :
    (text.dropWhile inClass).length ≤ text.length := (List.dropWhile_suffix _).length_le

theorem fraction_length (text part rest : Bytes) (found : fraction? text = some (part, rest)) :
    rest.length ≤ text.length := by
  unfold fraction? at found
  split at found
  · cases found
    exact Nat.le_refl _
  · rename_i b later
    dsimp only at found
    split at found
    · split at found
      · cases found
      · cases found
        exact (dropWhile_length _ later).trans (Nat.le_succ _)
    · cases found
      exact Nat.le_refl _

theorem takeSign_length (text : Bytes) : (Numeral.takeSign text).2.length ≤ text.length := by
  cases text with
  | nil => exact Nat.le_refl _
  | cons b rest =>
      rw [Numeral.takeSign]
      split
      · exact Nat.le_succ _
      · split
        · exact Nat.le_succ _
        · exact Nat.le_refl _

theorem exponent_length (text rest : Bytes) (exponent : Option Int)
    (found : exponent? text = some (exponent, rest)) : rest.length ≤ text.length := by
  unfold exponent? at found
  split at found
  · cases found
    exact Nat.le_refl _
  · rename_i b later
    dsimp only at found
    split at found
    · split at found
      · cases found
      · cases found
        exact ((dropWhile_length _ _).trans (takeSign_length later)).trans (Nat.le_succ _)
    · cases found
      exact Nat.le_refl _

section Reading

variable (limit : Nat) (text rest : Bytes) (within : text.length ≤ limit)
include within

theorem takeNumber_within (value : Json) (found : takeNumber text = .ok (value, rest)) :
    ReadWithin limit value rest := by
  unfold takeNumber at found
  dsimp only at found
  generalize body_eq : (if (text.head? == some (byte '-')) = true then text.drop 1 else text) = body
    at found
  have short : body.length ≤ text.length := by
    rw [← body_eq]
    split
    · rw [List.length_drop]
      exact Nat.sub_le _ _
    · exact Nat.le_refl _
  split at found
  · cases found
  · split at found
    · cases found
    · rename_i part afterPart fraction
      split at found
      · cases found
      · rename_i exponent after written
        obtain ⟨read, made, same⟩ := map_ok found
        cases same
        refine ⟨number_holds _ _ _ _ _ _ made, ?_⟩
        have first := dropWhile_length isDigit body
        have second := fraction_length _ _ _ fraction
        have third := exponent_length _ _ _ written
        omega

theorem takeWord_within (word : String) (own value : Json)
    (plain : own.Holds (IsTextWithin limit) Fits) (found : takeWord word own text = .ok (value, rest)) :
    ReadWithin limit value rest := by
  unfold takeWord at found
  split at found
  · cases found
    refine ⟨plain, ?_⟩
    rw [List.length_drop]
    omega
  · cases found

theorem takeString_within (content : Bytes) (found : takeString text = .ok (content, rest)) :
    IsTextWithin limit content ∧ rest.length ≤ limit := by
  unfold takeString at found
  cases read : string? text with
  | none =>
      rw [read] at found
      cases found
  | some taken =>
      rw [read] at found
      cases found
      obtain ⟨⟨valid, small⟩, short⟩ := string_within _ _ _ read
      exact ⟨⟨valid, small.trans within⟩, short.trans within⟩

theorem skipSpace_within : (skipSpace text).length ≤ limit := (dropWhile_length _ text).trans within

end Reading

section Containers

variable (limit : Nat) (takeInner : Bytes → Except ReadError (Json × Bytes))
  (each : ∀ text value rest, text.length ≤ limit → takeInner text = .ok (value, rest) →
    ReadWithin limit value rest)
include each

theorem takeItems_within (steps : Nat) (text rest : Bytes) (items : List Json)
    (within : text.length ≤ limit) (found : takeItems takeInner steps text = .ok (items, rest)) :
    ItemsHold (IsTextWithin limit) Fits items ∧ rest.length ≤ limit := by
  induction steps generalizing text items with
  | zero => cases found
  | succ steps ih =>
      unfold takeItems at found
      obtain ⟨⟨item, after⟩, first, found⟩ := bind_ok found
      dsimp only at found
      obtain ⟨own, short⟩ := each _ _ _ (skipSpace_within limit text within) first
      have fewer := skipSpace_within limit after short
      split at found
      · cases found
      · rename_i b later remaining
        rw [remaining, List.length_cons] at fewer
        split at found
        · cases found
          exact ⟨⟨own, trivial⟩, by omega⟩
        · split at found
          · obtain ⟨⟨more, last⟩, further, found⟩ := bind_ok found
            cases found
            obtain ⟨others, tail⟩ := ih later more (by omega) further
            exact ⟨⟨own, others⟩, tail⟩
          · cases found

theorem takeMembers_within (steps : Nat) (text rest : Bytes) (members : Members)
    (within : text.length ≤ limit) (found : takeMembers takeInner steps text = .ok (members, rest)) :
    MembersHold (IsTextWithin limit) Fits members ∧ rest.length ≤ limit := by
  induction steps generalizing text members with
  | zero => cases found
  | succ steps ih =>
      unfold takeMembers at found
      obtain ⟨⟨key, afterKey⟩, named, found⟩ := bind_ok found
      dsimp only at found
      have start := skipSpace_within limit text within
      obtain ⟨keyHolds, shorter⟩ := takeString_within limit _ _ start _ named
      have colonLeft := skipSpace_within limit afterKey shorter
      split at found
      · cases found
      · rename_i colon afterColon marked
        rw [marked, List.length_cons] at colonLeft
        split at found
        · cases found
        · obtain ⟨⟨value, after⟩, first, found⟩ := bind_ok found
          dsimp only at found
          obtain ⟨own, short⟩ :=
            each _ _ _ (skipSpace_within limit afterColon (by omega)) first
          have fewer := skipSpace_within limit after short
          split at found
          · cases found
          · rename_i b later remaining
            rw [remaining, List.length_cons] at fewer
            split at found
            · cases found
              exact ⟨⟨keyHolds, own, trivial⟩, by omega⟩
            · split at found
              · obtain ⟨⟨more, last⟩, further, found⟩ := bind_ok found
                cases found
                obtain ⟨others, tail⟩ := ih later more (by omega) further
                exact ⟨⟨keyHolds, own, others⟩, tail⟩
              · cases found

end Containers

-- One value, when those that are nested one level deeper are known.
theorem takeValue_step (limit depth : Nat) (text rest : Bytes) (value : Json)
    (each : ∀ inner, depth = inner + 1 → ∀ text value rest, text.length ≤ limit →
      takeValue inner text = .ok (value, rest) → ReadWithin limit value rest)
    (within : text.length ≤ limit) (found : takeValue depth text = .ok (value, rest)) :
    ReadWithin limit value rest := by
  unfold takeValue at found
  split at found
  · cases found
  · rename_i b later
    have less : later.length ≤ limit := (Nat.le_succ _).trans within
    split at found
    · obtain ⟨⟨content, after⟩, read, same⟩ := map_ok found
      cases same
      exact takeString_within limit _ _ within _ read
    split at found
    · split at found
      · cases found
      · rename_i inner
        have opened := skipSpace_within limit later less
        split at found
        · cases found
        · rename_i first following skipped
          rw [skipped] at opened
          split at found
          · cases found
            exact ⟨trivial, (Nat.le_succ _).trans opened⟩
          · obtain ⟨⟨items, after⟩, read, same⟩ := map_ok found
            cases same
            exact takeItems_within limit _ (each inner rfl) _ _ _ _ opened read
    split at found
    · split at found
      · cases found
      · rename_i inner
        have opened := skipSpace_within limit later less
        split at found
        · cases found
        · rename_i first following skipped
          rw [skipped] at opened
          split at found
          · cases found
            exact ⟨trivial, (Nat.le_succ _).trans opened⟩
          · obtain ⟨⟨members, after⟩, read, same⟩ := map_ok found
            cases same
            obtain ⟨holds, short⟩ := takeMembers_within limit _ (each inner rfl) _ _ _ _ opened read
            exact ⟨holds_object members ((membersHold_iff _ _ _).mp holds), short⟩
    split at found
    · exact takeWord_within limit _ _ within "true" (.bool true) _ trivial found
    split at found
    · exact takeWord_within limit _ _ within "false" (.bool false) _ trivial found
    split at found
    · exact takeWord_within limit _ _ within "null" .null _ trivial found
    · exact takeNumber_within limit _ _ within _ found

theorem takeValue_within (limit depth : Nat) (text rest : Bytes) (value : Json)
    (within : text.length ≤ limit) (found : takeValue depth text = .ok (value, rest)) :
    ReadWithin limit value rest := by
  induction depth generalizing text value rest with
  | zero => exact takeValue_step limit 0 text rest value (by omega) within found
  | succ inner ih =>
      refine takeValue_step limit (inner + 1) text rest value ?_ within found
      rintro own same other nested after short read
      cases same
      exact ih other after nested short read

theorem readWhole_within (text : Bytes) (value : Json) (found : readWhole text = .ok value) :
    value.Holds (IsTextWithin text.length) Fits := by
  obtain ⟨⟨own, rest⟩, read, found⟩ := bind_ok found
  dsimp only at found
  split at found
  · cases found
    exact (takeValue_within text.length _ _ _ _ (dropWhile_length _ text) read).1
  · cases found

variable [Dialect]

theorem beforeEnd_length (text : Bytes) : (beforeEnd text).length ≤ text.length := by
  unfold beforeEnd
  split
  · exact (List.takeWhile_prefix _).length_le
  · exact Nat.le_refl _

theorem withoutMark_length (text : Bytes) : (withoutMark text).length ≤ text.length := by
  unfold withoutMark
  split
  · rw [List.length_drop]
    exact Nat.sub_le _ _
  · exact Nat.le_refl _

theorem read?_eq_some (text : Bytes) (value : Json) :
    read? text = some value ↔ readWhole (beforeEnd (withoutMark text)) = .ok value := by
  unfold read? read
  cases readWhole (beforeEnd (withoutMark text)) <;> simp [Except.toOption]

/-- What a value is made of that was read from a text. -/
theorem read_within (text : Bytes) (value : Json) (found : read? text = some value) :
    value.Holds (IsTextWithin text.length) Fits := by
  have inside := readWhole_within _ value ((read?_eq_some text value).mp found)
  have short := (beforeEnd_length (withoutMark text)).trans (withoutMark_length text)
  exact holds_mono (fun content within => ⟨within.1, within.2.trans short⟩) (fun _ fits => fits)
    value inside

end EndpointPreview.Json
