import EndpointPreview.Proofs.ClosedTexts
import EndpointPreview.Proofs.ParameterPositions

/-!
Parameter lists as they are written. A parameter is its stars, its name, a type behind a colon and a
default behind an `=`; the list has commas between its parts and white space wherever it likes, and
bare markers stand among the parameters. Commas, colons and `=` inside the brackets and strings of a
type or a default are none of the list's own, so reading the list gives the parameters back.
-/

namespace EndpointPreview.Notation

open Text
open ByPosition (continued continued_nil continued_continued splitTopFrom_cons splitDefaultFrom_step)

abbrev Gap := {text : Bytes // isBlank text = true}

structure Spacing where
  beforeColon : Gap
  afterColon : Gap
  beforeEquals : Gap
  afterEquals : Gap

/-- A byte of an identifier; beyond ASCII every character may be part of one. -/
def isIdentifierByte (b : UInt8) : Bool := isWordByte b || 0x80 ≤ b

structure ValueText (top : UInt8 → Prop) (text : Bytes) : Prop where
  written : text ≠ []
  trimmed : trim text = text
  closed : ClosedText top text

def ParameterKind.stars : ParameterKind → Bytes
  | required | defaulted => []
  | variadicPositional => ascii "*"
  | variadicKeyword => ascii "**"

namespace Parameter

def typeSuffix (spacing : Spacing) : Option Bytes → Bytes
  | none => []
  | some typeText => spacing.beforeColon.val ++ byte ':' :: (spacing.afterColon.val ++ typeText)

def defaultSuffix (spacing : Spacing) : Option Bytes → Bytes
  | none => []
  | some default => spacing.beforeEquals.val ++ byte '=' :: (spacing.afterEquals.val ++ default)

def declaration (spacing : Spacing) (parameter : Parameter) : Bytes :=
  parameter.kind.stars ++ (parameter.name ++ typeSuffix spacing parameter.typeText)

def written (spacing : Spacing) (parameter : Parameter) : Bytes :=
  parameter.declaration spacing ++ defaultSuffix spacing parameter.default

-- A parameter with a name, and perhaps a type, that has a default if it is defaulted.
structure Printable (parameter : Parameter) : Prop where
  named : parameter.name ≠ []
  name_bytes : ∀ b ∈ parameter.name, isIdentifierByte b = true
  typed : ∀ typeText ∈ parameter.typeText, ValueText (fun b => b ≠ byte ',' ∧ b ≠ byte '=') typeText
  defaulted : ∀ default ∈ parameter.default, ValueText (fun b => b ≠ byte ',') default
  kind : parameter.kind = .defaulted ↔ parameter.default.isSome = true

/-- Where no white space stands beside the `=` of a default, no comparison begins or ends there. -/
def AssignsPlainly (spacing : Spacing) (parameter : Parameter) : Prop :=
  ∀ default ∈ parameter.default,
    (spacing.afterEquals.val = [] → default.head? ≠ some (byte '=')) ∧
      (spacing.beforeEquals.val = [] →
        ∀ b ∈ (parameter.declaration spacing).getLast?, isComparison b = false)

end Parameter

-- A part of a parameter list: a parameter, a bare marker, or nothing behind a last comma.
inductive ListItem where
  | parameter (declared : Parameter) (spacing : Spacing)
  | marker (mark : Bytes)

namespace ListItem

def text : ListItem → Bytes
  | parameter declared spacing => declared.written spacing
  | marker mark => mark

def parameter? : ListItem → Option Parameter
  | parameter declared _ => some declared
  | marker _ => none

def Printable : ListItem → Prop
  | parameter declared spacing => declared.Printable ∧ declared.AssignsPlainly spacing
  | marker mark => mark = [] ∨ Parameter.isSeparator mark = true

end ListItem

structure ListPart where
  lead : Gap
  item : ListItem
  trail : Gap

def ListPart.text (part : ListPart) : Bytes := part.lead.val ++ part.item.text ++ part.trail.val

def listText (parts : List ListPart) : Bytes := joinWith (ascii ",") (parts.map ListPart.text)

theorem splitTopFrom_clear (state : Nesting) (text rest : Bytes)
    (clear : ClearOf (byte ',') state text) :
    splitTopFrom state (text ++ rest) =
      continued text (splitTopFrom (text.foldl Nesting.step state) rest) := by
  induction text generalizing state with
  | nil => exact (continued_nil state rest).symm
  | cons b text ih =>
      rw [List.cons_append, splitTopFrom_cons, clear.first, if_neg Bool.false_ne_true,
        ih _ clear.2, continued_continued, List.foldl_cons, List.singleton_append]

theorem splitTopLevel_joined (part : Bytes) (later : List Bytes)
    (closed : ∀ text ∈ part :: later, ClosedText (fun b => b ≠ byte ',') text) :
    splitTopLevel (joinWith (ascii ",") (part :: later)) = part :: later := by
  have passes (rest : Bytes) (text : Bytes) (own : ClosedText (fun b => b ≠ byte ',') text) :
      splitTopLevel (text ++ rest) = continued text (splitTopLevel rest) := by
    have clear : ClearOf (byte ',') (.level 0) text :=
      own.clearOf rfl 0 (Int.le_refl 0) fun comma => absurd rfl comma
    have through := splitTopFrom_clear (.level 0) text rest clear
    rwa [own.passes 0] at through
  induction later generalizing part with
  | nil => simpa [joinWith, splitTopLevel, splitTopFrom, continued] using
      passes [] part (closed part List.mem_cons_self)
  | cons next later ih =>
      obtain ⟨own, others⟩ := List.forall_mem_cons.mp closed
      have comma (rest : Bytes) : splitTopLevel (byte ',' :: rest) = [] :: splitTopLevel rest := rfl
      calc splitTopLevel (joinWith (ascii ",") (part :: next :: later))
          = splitTopLevel (part ++ byte ',' :: joinWith (ascii ",") (next :: later)) := by
            simp [joinWith, ascii]
        _ = part :: next :: later := by
            rw [passes _ part own, comma, ih next others]
            simp [continued]

theorem splitDefaultFrom_clear (state : Nesting) (previous : Option UInt8) (text rest : Bytes)
    (clear : ClearOf (byte '=') state text) :
    splitDefaultFrom state previous (text ++ rest) =
      (splitDefaultFrom (text.foldl Nesting.step state) (text.getLast?.or previous) rest).map
        fun (before, after) => (text ++ before, after) := by
  induction text generalizing state previous with
  | nil => simp
  | cons b text ih =>
      have last : (b :: text).getLast?.or previous = text.getLast?.or (some b) := by
        cases text with
        | nil => rfl
        | cons next text => simp [List.getLast?_cons]
      rw [List.cons_append, splitDefaultFrom_step _ _ clear.first, ih _ _ clear.2, Option.map_map,
        List.foldl_cons, last]
      rfl

theorem splitDefault_none (text : Bytes)
    (closed : ClosedText (fun b => b ≠ byte ',' ∧ b ≠ byte '=') text) : splitDefault? text = none := by
  have clear : ClearOf (byte '=') (.level 0) text :=
    closed.clearOf rfl 0 (Int.le_refl 0) fun own => absurd rfl own.2
  have through := splitDefaultFrom_clear (.level 0) none text [] clear
  rw [List.append_nil] at through
  exact through

theorem splitDefault_assigns (text rest : Bytes)
    (closed : ClosedText (fun b => b ≠ byte ',' ∧ b ≠ byte '=') text)
    (single : rest.head? ≠ some (byte '=')) (plain : ∀ b ∈ text.getLast?, isComparison b = false) :
    splitDefault? (text ++ byte '=' :: rest) = some (text, rest) := by
  have clear : ClearOf (byte '=') (.level 0) text :=
    closed.clearOf rfl 0 (Int.le_refl 0) fun own => absurd rfl own.2
  have through := splitDefaultFrom_clear (.level 0) none text (byte '=' :: rest) clear
  have before : ((text.getLast?.or none).map isComparison).getD false = false := by
    cases last : text.getLast? with
    | none => rfl
    | some b => exact plain b last
  have here : splitDefaultFrom (.level 0) (text.getLast?.or none) (byte '=' :: rest) =
      some ([], rest) := by
    rw [splitDefaultFrom, before]
    have next : (rest.head? != some (byte '=')) = true := by simpa using single
    rw [next]
    rfl
  rw [closed.passes 0, here, Option.map_some] at through
  dsimp only at through
  rwa [List.append_nil] at through

theorem identifier_apart (b : UInt8) (own : isIdentifierByte b = true) :
    isEnclosing b = false ∧ isSpace b = false ∧ b ≠ byte ',' ∧ b ≠ byte '=' ∧ b ≠ byte ':' := by
  have apart (other : UInt8) (outside : isIdentifierByte other = false) : b ≠ other := by
    rintro rfl
    cases own.symm.trans outside
  have no_enclosing : isEnclosing b = false := by
    by_contra encloses
    simp only [isEnclosing, isOpening, isClosing, Bool.not_eq_false, Bool.or_eq_true,
      beq_iff_eq] at encloses
    rcases encloses with ((quote | quote) | (opens | opens) | opens) | (closes | closes) | closes
    all_goals exact absurd ‹b = _› (apart _ rfl)
  have no_space : isSpace b = false := by
    by_contra space
    rw [Bool.not_eq_false] at space
    rcases space_cases b space with same | same | same | same | same | same
    all_goals exact absurd same (apart _ rfl)
  exact ⟨no_enclosing, no_space, apart _ rfl, apart _ rfl, apart _ rfl⟩

theorem gap_closed (gap : Gap) : ClosedText (fun b => b ≠ byte ',' ∧ b ≠ byte '=') gap.val :=
  .blank gap.property fun b white => by
    rcases space_cases b white with rfl | rfl | rfl | rfl | rfl | rfl <;> decide

theorem gap_before {mark : UInt8} (gap : Gap) {text : Bytes} (solid : isSpace mark = false)
    (apart : gap.val = [] → text.head? ≠ some mark) : (gap.val ++ text).head? ≠ some mark := by
  obtain ⟨bytes, blank⟩ := gap
  cases bytes with
  | nil => exact apart rfl
  | cons b rest =>
      intro same
      have white := (isBlank_iff _).mp blank b List.mem_cons_self
      rw [Option.some.inj same, solid] at white
      cases white

theorem gap_after (gap : Gap) {text : Bytes}
    (plain : gap.val = [] → ∀ b ∈ text.getLast?, isComparison b = false) :
    ∀ b ∈ (text ++ gap.val).getLast?, isComparison b = false := by
  obtain ⟨bytes, blank⟩ := gap
  by_cases empty : bytes = []
  · subst empty
    rw [List.append_nil]
    exact plain rfl
  · intro b last
    rw [List.getLast?_append_of_ne_nil _ empty] at last
    have white := (isBlank_iff _).mp blank b (List.mem_of_getLast? last)
    rcases space_cases b white with rfl | rfl | rfl | rfl | rfl | rfl <;> rfl

theorem stars_bytes (kind : ParameterKind) : ∀ b ∈ kind.stars, b = byte '*' := by
  cases kind <;> decide +kernel

theorem startsWith_own (start rest : Bytes) : startsWith start (start ++ rest) = true :=
  List.isPrefixOf_iff_prefix.mpr (List.prefix_append start rest)

namespace Parameter.Printable

variable {parameter : Parameter} (printable : parameter.Printable) (spacing : Spacing)
include printable

theorem trim_name : trim parameter.name = parameter.name :=
  trim_solid_bytes _ fun b member => (identifier_apart b (printable.name_bytes b member)).2.1

theorem name_closed : ClosedText (fun b => b ≠ byte ',' ∧ b ≠ byte '=') parameter.name :=
  .plain fun b member =>
    have ⟨plain, _, comma, equals, _⟩ := identifier_apart b (printable.name_bytes b member)
    ⟨plain, comma, equals⟩

theorem declared_written (kind : ParameterKind) (default : Option Bytes) (gap : Bytes)
    (blank : isBlank gap = true) :
    declared kind default (parameter.name ++ typeSuffix spacing parameter.typeText ++ gap) =
      ⟨parameter.name, kind, default, parameter.typeText⟩ := by
  have no_colon (space : Bytes) (white : isBlank space = true) :
      byte ':' ∉ parameter.name ++ space := by
    intro member
    rcases List.mem_append.mp member with inside | outside
    · exact (identifier_apart _ (printable.name_bytes _ inside)).2.2.2.2 rfl
    · exact absurd ((isBlank_iff space).mp white _ outside) (by decide)
  unfold declared
  cases typed : parameter.typeText with
  | none =>
      rw [typeSuffix, List.append_nil, cutAt_none _ _ (no_colon gap blank)]
      simp only
      rw [trim_trail _ _ blank, printable.trim_name]
  | some typeText =>
      have value := printable.typed typeText typed
      have around : trim (spacing.afterColon.val ++ typeText ++ gap) = typeText := by
        rw [trim_padded _ _ _ spacing.afterColon.property blank, value.trimmed]
      have whole : parameter.name ++ typeSuffix spacing (some typeText) ++ gap =
          parameter.name ++ spacing.beforeColon.val ++
            byte ':' :: (spacing.afterColon.val ++ typeText ++ gap) := by
        simp [typeSuffix]
      have kept : nonEmpty typeText = some typeText := by simp [nonEmpty, value.written]
      rw [whole, cutAt_mark _ _ _ (no_colon _ spacing.beforeColon.property)]
      simp only
      rw [trim_trail _ _ spacing.beforeColon.property, printable.trim_name, around, kept]

/-- The stars stand before the name, so the declaration is at its own level what it looks like. -/
theorem declaration_closed :
    ClosedText (fun b => b ≠ byte ',' ∧ b ≠ byte '=') (parameter.declaration spacing) := by
  have stars : ClosedText (fun b => b ≠ byte ',' ∧ b ≠ byte '=') parameter.kind.stars :=
    .plain fun b star => by
      rw [stars_bytes parameter.kind b star]
      decide
  have suffix : ClosedText (fun b => b ≠ byte ',' ∧ b ≠ byte '=')
      (typeSuffix spacing parameter.typeText) := by
    cases typed : parameter.typeText with
    | none => exact .empty _
    | some typeText =>
        have value := printable.typed typeText typed
        exact (gap_closed spacing.beforeColon).append (.byte _ (byte ':') _ rfl (by decide)
          ((gap_closed spacing.afterColon).append value.closed))
  exact stars.append (printable.name_closed.append suffix)

theorem written_closed : ClosedText (fun b => b ≠ byte ',') (parameter.written spacing) := by
  have front := (printable.declaration_closed spacing).weaken (fun b => b ≠ byte ',')
    fun b own => own.1
  have suffix : ClosedText (fun b => b ≠ byte ',') (defaultSuffix spacing parameter.default) := by
    cases defaulted : parameter.default with
    | none => exact .empty _
    | some default =>
        have value := printable.defaulted default defaulted
        have gap (space : Gap) := (gap_closed space).weaken (fun b => b ≠ byte ',')
          fun b own => own.1
        exact (gap spacing.beforeEquals).append (.byte _ (byte '=') _ rfl (by decide)
          ((gap spacing.afterEquals).append value.closed))
  exact front.append suffix

theorem declaration_some : parameter.declaration spacing ≠ [] := by
  simp [declaration, printable.named]

theorem trim_declaration : trim (parameter.declaration spacing) = parameter.declaration spacing := by
  have front : trim (parameter.kind.stars ++ parameter.name) =
      parameter.kind.stars ++ parameter.name := by
    refine trim_solid_bytes _ fun b member => ?_
    rcases List.mem_append.mp member with star | name
    · rw [stars_bytes parameter.kind b star]
      rfl
    · exact (identifier_apart b (printable.name_bytes b name)).2.1
  have named : parameter.kind.stars ++ parameter.name ≠ [] := by simp [printable.named]
  unfold declaration
  rw [← List.append_assoc]
  cases typed : parameter.typeText with
  | none => rwa [typeSuffix, List.append_nil]
  | some typeText =>
      have value := printable.typed typeText typed
      have whole := trim_joined _ (spacing.beforeColon.val ++ byte ':' :: spacing.afterColon.val) _
        front value.trimmed named value.written
      simpa [typeSuffix] using whole

theorem trim_written : trim (parameter.written spacing) = parameter.written spacing := by
  unfold written
  cases defaulted : parameter.default with
  | none => rw [defaultSuffix, List.append_nil, printable.trim_declaration]
  | some default =>
      have value := printable.defaulted default defaulted
      have whole := trim_joined _ (spacing.beforeEquals.val ++ byte '=' :: spacing.afterEquals.val) _
        (printable.trim_declaration spacing) value.trimmed (printable.declaration_some spacing)
        value.written
      simpa [defaultSuffix] using whole

/-- A parameter has a byte of a name in it, which a bare marker has not. -/
theorem written_no_marker :
    (!(parameter.written spacing).isEmpty && !isSeparator (parameter.written spacing)) = true := by
  obtain ⟨b, inside⟩ := List.exists_mem_of_ne_nil _ printable.named
  have own : b ∈ parameter.written spacing := by simp [written, declaration, inside]
  have apart (mark : Bytes) (other : mark.all (!isIdentifierByte ·) = true) :
      parameter.written spacing ≠ mark := by
    rintro rfl
    have outside := List.all_eq_true.mp other b own
    rw [printable.name_bytes b inside] at outside
    cases outside
  have star := apart (ascii "*") (by decide)
  have slash := apart (ascii "/") (by decide)
  have some_text := apart [] rfl
  simp [isSeparator, star, slash, some_text]

theorem no_star (mark rest : Bytes) (starts : mark.head? = some (byte '*')) :
    ¬ startsWith mark (parameter.name ++ rest) = true := by
  intro front
  obtain ⟨later, whole⟩ := List.isPrefixOf_iff_prefix.mp front
  have same := congrArg List.head? whole
  rw [List.head?_append, starts, List.head?_append_of_ne_nil _ printable.named] at same
  have own := printable.name_bytes _ (List.mem_of_mem_head? same.symm)
  cases own

/-- A part of the list is read as the parameter that it was written for. -/
theorem ofPart_written (plainly : parameter.AssignsPlainly spacing) :
    ofPart (parameter.written spacing) = parameter := by
  have front := printable.declaration_closed spacing
  have declared_again := printable.declared_written spacing
  have no_star := printable.no_star
  have kinds := printable.kind
  obtain ⟨name, kind, default, typeText⟩ := parameter
  cases default with
  | some default =>
      obtain rfl : kind = .defaulted := kinds.mpr rfl
      obtain ⟨single, plain⟩ := plainly default rfl
      have cut := splitDefault_assigns _ _ (front.append (gap_closed spacing.beforeEquals))
        (gap_before spacing.afterEquals rfl single) (gap_after spacing.beforeEquals plain)
      have value := (printable.defaulted default rfl).trimmed
      unfold ofPart written defaultSuffix
      rw [← List.append_assoc, cut]
      dsimp only
      rw [trim_lead _ _ spacing.afterEquals.property, value]
      exact declared_again _ _ _ spacing.beforeEquals.property
  | none =>
      have bare (kind : ParameterKind) := declared_again kind none [] rfl
      simp only [List.append_nil] at bare
      unfold ofPart written defaultSuffix
      dsimp only
      rw [List.append_nil, splitDefault_none _ front]
      unfold declaration
      cases kind with
      | required =>
          rw [ParameterKind.stars, List.nil_append, if_neg (no_star _ _ rfl),
            if_neg (no_star _ _ rfl)]
          exact bare .required
      | defaulted => exact absurd (kinds.mp rfl) (by simp)
      | variadicPositional =>
          have one : ¬ startsWith (ascii "**")
              (ascii "*" ++ (name ++ typeSuffix spacing typeText)) = true :=
            no_star (ascii "*") _ rfl
          rw [ParameterKind.stars, if_neg one, if_pos (startsWith_own _ _)]
          exact bare .variadicPositional
      | variadicKeyword =>
          rw [ParameterKind.stars, if_pos (startsWith_own _ _)]
          exact bare .variadicKeyword

end Parameter.Printable

theorem ListItem.Printable.trim_text {item : ListItem} (printable : item.Printable) :
    trim item.text = item.text := by
  cases item with
  | parameter declared spacing => exact printable.1.trim_written spacing
  | marker mark =>
      obtain rfl | marks := printable
      · rfl
      · simp only [Parameter.isSeparator, Bool.or_eq_true, beq_iff_eq] at marks
        obtain rfl | rfl := marks <;> rfl

theorem ListItem.Printable.closed {item : ListItem} (printable : item.Printable) :
    ClosedText (fun b => b ≠ byte ',') item.text := by
  cases item with
  | parameter declared spacing => exact printable.1.written_closed spacing
  | marker mark =>
      obtain rfl | marks := printable
      · exact .empty _
      · simp only [Parameter.isSeparator, Bool.or_eq_true, beq_iff_eq] at marks
        obtain rfl | rfl := marks <;> exact .plain (by decide +kernel)

def readPart (part : Bytes) : Option Parameter :=
  if !part.isEmpty && !Parameter.isSeparator part then some (Parameter.ofPart part) else none

theorem ListItem.Printable.read {item : ListItem} (printable : item.Printable) :
    readPart item.text = item.parameter? := by
  cases item with
  | parameter declared spacing =>
      obtain ⟨own, plainly⟩ := printable
      exact (if_pos (own.written_no_marker spacing)).trans
        (congrArg some (own.ofPart_written spacing plainly))
  | marker mark =>
      obtain rfl | marks := printable
      · rfl
      · exact if_neg (by simp [ListItem.text, marks])

theorem Parameter.parse_filterMap (text : Bytes) :
    Parameter.parse text = (splitTopLevel text).filterMap fun part => readPart (trim part) := by
  unfold Parameter.parse
  induction splitTopLevel text with
  | nil => rfl
  | cons part later ih =>
      rw [List.map_cons, List.filter_cons, List.filterMap_cons, readPart]
      split
      · rw [List.map_cons, ih]
      · exact ih

/-- A list of parameters comes back from its written form, in order and in full, whatever stands in
its types, defaults and strings, and whatever white space and bare markers stand among them. -/
theorem parse_listText (parts : List ListPart) (printable : ∀ part ∈ parts, part.item.Printable) :
    Parameter.parse (listText parts) = parts.filterMap fun part => part.item.parameter? := by
  have read (part : ListPart) (member : part ∈ parts) :
      readPart (trim part.text) = part.item.parameter? := by
    have own := printable part member
    rw [ListPart.text, trim_padded _ _ _ part.lead.property part.trail.property, own.trim_text,
      own.read]
  have closed (part : ListPart) (member : part ∈ parts) :
      ClosedText (fun b => b ≠ byte ',') part.text := by
    have gap (space : Gap) := (gap_closed space).weaken (fun b => b ≠ byte ',')
      fun b own => own.1
    exact ((gap part.lead).append (printable part member).closed).append (gap part.trail)
  have all_closed : ∀ text ∈ parts.map ListPart.text, ClosedText (fun b => b ≠ byte ',') text :=
    List.forall_mem_map.mpr closed
  rw [Parameter.parse_filterMap, listText]
  cases parts with
  | nil => rfl
  | cons part later =>
      rw [List.map_cons, splitTopLevel_joined _ _ all_closed, ← List.map_cons,
        List.filterMap_map]
      exact List.filterMap_congr read

/-- A type and a default with commas, colons and an `=` inside, a bare `*`, and an `=` without white
space. -/
def nestedList : List ListPart :=
  let none : Gap := ⟨[], rfl⟩
  let one : Gap := ⟨ascii " ", rfl⟩
  let usual : Spacing := ⟨none, one, one, one⟩
  let tight : Spacing := ⟨none, none, none, none⟩
  [⟨none, .parameter ⟨ascii "a", .required, .none, .none⟩ usual, none⟩,
    ⟨one, .parameter ⟨ascii "b", .defaulted, ascii "['k=1, ', ':)']", ascii "Map[str, int]"⟩ usual,
      one⟩,
    ⟨⟨newline :: ascii "  ", rfl⟩, .marker (ascii "*"), none⟩,
    ⟨none, .parameter ⟨ascii "c", .defaulted, ascii "1", ascii "int"⟩ tight, none⟩,
    ⟨one, .parameter ⟨ascii "rest", .variadicKeyword, .none, .none⟩ usual, none⟩]

theorem parse_nestedList : listText nestedList =
      ascii "a, b: Map[str, int] = ['k=1, ', ':)'] ,\n  *,c:int=1, **rest" ∧
    Parameter.parse (listText nestedList) =
      [⟨ascii "a", .required, none, none⟩,
        ⟨ascii "b", .defaulted, ascii "['k=1, ', ':)']", ascii "Map[str, int]"⟩,
        ⟨ascii "c", .defaulted, ascii "1", ascii "int"⟩,
        ⟨ascii "rest", .variadicKeyword, none, none⟩] := by
  have typeText : ValueText (fun b => b ≠ byte ',' ∧ b ≠ byte '=') (ascii "Map[str, int]") :=
    ⟨by decide, by decide, (.plain (by decide +kernel) : ClosedText _ (ascii "Map")).append
      (.bracketed _ (byte '[') (byte ']') (ascii "str, int") [] rfl rfl (.plain (by decide +kernel))
        (.empty _))⟩
  have default : ValueText (fun b => b ≠ byte ',') (ascii "['k=1, ', ':)']") :=
    ⟨by decide, by decide, .bracketed _ (byte '[') (byte ']') (ascii "'k=1, ', ':)'") [] rfl rfl
      (.quoted _ singleQuote (ascii "k=1, ") _ (.inl rfl) (.plain (by decide +kernel))
        (.byte _ (byte ',') _ rfl trivial (.byte _ (byte ' ') _ rfl trivial
          (.quoted _ singleQuote (ascii ":)") [] (.inl rfl) (.plain (by decide +kernel))
            (.empty _)))))
      (.empty _)⟩
  have number : ValueText (fun b => b ≠ byte ',') (ascii "1") :=
    ⟨by decide, by decide, .plain (by decide +kernel)⟩
  have whole : ValueText (fun b => b ≠ byte ',' ∧ b ≠ byte '=') (ascii "int") :=
    ⟨by decide, by decide, .plain (by decide +kernel)⟩
  refine ⟨by decide, parse_listText nestedList fun part member => ?_⟩
  simp only [nestedList, List.mem_cons, List.not_mem_nil, or_false] at member
  rcases member with rfl | rfl | rfl | rfl | rfl
  · exact ⟨⟨by decide, by decide +kernel, nofun, nofun, by decide⟩, nofun⟩
  · refine ⟨⟨by decide, by decide +kernel, ?_, ?_, by decide⟩, ?_⟩
    · rintro _ ⟨⟩
      exact typeText
    · rintro _ ⟨⟩
      exact default
    · rintro _ ⟨⟩
      exact ⟨nofun, nofun⟩
  · exact .inr rfl
  · refine ⟨⟨by decide, by decide +kernel, ?_, ?_, by decide⟩, ?_⟩
    · rintro _ ⟨⟩
      exact whole
    · rintro _ ⟨⟩
      exact number
    · rintro _ ⟨⟩
      exact ⟨by decide, by decide +kernel⟩
  · exact ⟨⟨by decide, by decide +kernel, nofun, nofun, by decide⟩, nofun⟩

end EndpointPreview.Notation
