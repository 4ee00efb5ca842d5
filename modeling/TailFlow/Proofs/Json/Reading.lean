import TailFlow.Proofs.Json.Numerals
import TailFlow.Proofs.Json.Strings

/-!
# Documents are read back

The written form of a document is read into the draft of the document. The reader goes down into
what is nested with one step less each time, and it is given two steps for every character of the
text, so it never runs out of them.
-/

namespace TailFlow.Json

/-! ### One step of the reader -/

section Steps

variable {fuel : Nat} {c : Char} {text rest rest' next : List Char}

theorem readValue_array (hdrop : dropBlanks text = c :: rest) (hne : c ≠ ']') {items : List Draft}
    {ending : Option Flaw} {left : Option (List Char)}
    (hitems : readItems fuel (c :: rest) = (items, ending, left)) :
    readValue (fuel + 1) ('[' :: text) = (.array items ending, left) := by
  simp [readValue, hdrop, hne, hitems]

theorem readValue_object (hdrop : dropBlanks text = c :: rest) (hne : c ≠ '\x7d')
    {members : List (Key × Draft)} {ending : Option Flaw} {left : Option (List Char)}
    (hmembers : readMembers fuel (c :: rest) = (members, ending, left)) :
    readValue (fuel + 1) ('\x7b' :: text) = (.object members ending, left) := by
  simp [readValue, hdrop, hne, hmembers]

theorem readValue_scalar (harray : c ≠ '[') (hobject : c ≠ '\x7b') :
    readValue (fuel + 1) (c :: text) = readScalar fuel (c :: text) := by
  simp [readValue, harray, hobject]

theorem readItems_last {item : Draft} (hvalue : readValue fuel text = (item, some rest))
    (hdrop : dropBlanks rest = ']' :: rest') :
    readItems (fuel + 1) text = ([item], none, some rest') := by
  simp [readItems, hvalue, hdrop]

theorem readItems_more {item : Draft} (hvalue : readValue fuel text = (item, some rest))
    (hdrop : dropBlanks rest = ',' :: rest') (hnext : dropBlanks rest' = c :: next) (hne : c ≠ ']')
    {items : List Draft} {ending : Option Flaw} {left : Option (List Char)}
    (hitems : readItems fuel (c :: next) = (items, ending, left)) :
    readItems (fuel + 1) text = (item :: items, ending, left) := by
  simp [readItems, hvalue, hdrop, hnext, hne, hitems]

theorem dropBlanks_cons (hprint : isBlank c = false) : dropBlanks (c :: text) = c :: text := by
  simp [dropBlanks, hprint]

theorem readMembers_last {key : Key} (hkey : readKey fuel text = (key, some (':' :: rest)))
    {value : Draft} (hvalue : readValue fuel (dropBlanks rest) = (value, some rest'))
    (hdrop : dropBlanks rest' = '\x7d' :: next) :
    readMembers (fuel + 1) text = ([(key, value)], none, some next) := by
  have hcolon : dropBlanks (':' :: rest) = ':' :: rest := dropBlanks_cons (by decide)
  simp [readMembers, hkey, hcolon, hvalue, hdrop]

theorem readMembers_more {key : Key} (hkey : readKey fuel text = (key, some (':' :: rest)))
    {value : Draft} (hvalue : readValue fuel (dropBlanks rest) = (value, some rest'))
    {after : List Char} (hdrop : dropBlanks rest' = ',' :: after)
    (hnext : dropBlanks after = c :: next) (hne : c ≠ '\x7d') {members : List (Key × Draft)}
    {ending : Option Flaw} {left : Option (List Char)}
    (hmembers : readMembers fuel (c :: next) = (members, ending, left)) :
    readMembers (fuel + 1) text = ((key, value) :: members, ending, left) := by
  have hcolon : dropBlanks (':' :: rest) = ':' :: rest := dropBlanks_cons (by decide)
  simp [readMembers, hkey, hcolon, hvalue, hdrop, hnext, hne, hmembers]

end Steps

/-! ### Words, strings and numbers -/

theorem readScalar_quoted (value : String) {fuel : Nat} (hfuel : value.toList.length < fuel)
    (rest : List Char) :
    readScalar fuel ((quoted value).toList ++ rest) = (.string value, some rest) := by
  rw [quoted_append]
  simp [readScalar, readString_quoted hfuel rest]

theorem readKey_quoted (key : String) {fuel : Nat} (hfuel : key.toList.length < fuel)
    (rest : List Char) :
    readKey fuel ((quoted key).toList ++ rest) = (.text (rawChars key.toList) key, some rest) := by
  rw [quoted_append]
  simp [readKey, readString_quoted hfuel rest]

theorem Numeral.exists_text (numeral : Numeral) :
    ∃ c rest, numeral.text.toList = c :: rest ∧ startsNumber c := by
  obtain ⟨c, others, hdigits⟩ :=
    List.exists_cons_of_ne_nil (Nat.toDigits_ne_nil (n := numeral.whole) (b := 10))
  have hdigit : c.isDigit :=
    Nat.isDigit_of_mem_toDigits (b := 10) (by decide) (by decide) (hdigits ▸ List.mem_cons_self)
  rw [Numeral.text_eq]
  cases numeral.negative with
  | true => exact ⟨'-', _, by simp; rfl, rfl⟩
  | false => exact ⟨c, _, by simp [hdigits]; rfl, by simp [startsNumber, hdigit]⟩

theorem ne_of_startsNumber {c : Char} (hstarts : startsNumber c) {d : Char}
    (hother : startsNumber d = false) : c ≠ d := by
  rintro rfl
  exact absurd (hother.symm.trans hstarts) Bool.false_ne_true

theorem readScalar_numeral {numeral : Numeral} (hproper : numeral.Proper) {rest : List Char}
    (hrest : EndsNumeral rest) (fuel : Nat) :
    readScalar fuel (numeral.text.toList ++ rest) = (.number numeral, some rest) := by
  have hread := readNumeral_text hproper hrest
  obtain ⟨c, others, htext, hstarts⟩ := numeral.exists_text
  rw [htext, List.cons_append] at hread ⊢
  have hne {d : Char} (hother : startsNumber d = false) : c ≠ d := ne_of_startsNumber hstarts hother
  simp [readScalar, hne (d := 'n') rfl, hne (d := 't') rfl, hne (d := 'f') rfl,
    hne (d := '"') rfl, hstarts, hread]

/-! ### The layout of what is nested -/

/-- What stands between two brackets, from the first line on, with the closing bracket. -/
def blockText (depth : Nat) (closing : Char) : List String → List Char
  | [] => [closing]
  | [last] => last.toList ++ '\n' :: ((indent depth).toList ++ [closing])
  | line :: rest =>
    line.toList ++ ',' :: '\n' :: ((indent (depth + 1)).toList ++ blockText depth closing rest)

theorem toList_lines (depth : Nat) (closing : Char) {lines : List String} (hsome : lines ≠ []) :
    (",\n".intercalate (lines.map (indent (depth + 1) ++ ·))).toList
        ++ '\n' :: ((indent depth).toList ++ [closing])
      = (indent (depth + 1)).toList ++ blockText depth closing lines := by
  induction lines with
  | nil => exact absurd rfl hsome
  | cons line rest ih =>
    cases rest with
    | nil => simp [blockText]
    | cons next others =>
      rw [List.map_cons, List.map_cons, String.intercalate_cons_cons, ← List.map_cons, blockText]
      · simp only [String.toList_append, List.append_assoc, ih (List.cons_ne_nil _ _)]
        simp
      · exact nofun

theorem toList_bracketed (opening closing : Char) (depth : Nat) {lines : List String}
    (hsome : lines ≠ []) :
    (bracketed (String.singleton opening) (String.singleton closing) depth lines).toList
      = opening :: '\n' :: ((indent (depth + 1)).toList ++ blockText depth closing lines) := by
  rw [← toList_lines depth closing hsome, bracketed, if_neg (by simpa using hsome)]
  simp

theorem dropBlanks_indent (depth : Nat) (text : List Char) :
    dropBlanks ('\n' :: ((indent depth).toList ++ text)) = dropBlanks text := by
  have hblank : ∀ c ∈ '\n' :: (indent depth).toList, isBlank c := by
    simp [indent, isBlank]
  rw [← List.cons_append, dropBlanks, List.dropWhile_append_of_pos hblank]
  rfl

/-- The text begins with what a value may begin with. -/
def Starts (text : List Char) : Prop :=
  ∃ c rest, text = c :: rest ∧ isBlank c = false ∧ c ≠ ']' ∧ c ≠ '\x7d'

theorem Starts.append {text : List Char} (h : Starts text) (rest : List Char) :
    Starts (text ++ rest) := by
  obtain ⟨c, others, rfl, hprint, hne⟩ := h
  exact ⟨c, others ++ rest, rfl, hprint, hne⟩

theorem Starts.dropBlanks {text : List Char} (h : Starts text) : dropBlanks text = text := by
  obtain ⟨c, others, rfl, hprint, -⟩ := h
  exact dropBlanks_cons hprint

theorem starts_quoted (value : String) : Starts (quoted value).toList :=
  ⟨'"', _, by simpa using quoted_append value [], by decide, by decide, by decide⟩

theorem starts_render (depth : Nat) (document : Json) : Starts (render depth document).toList := by
  have hbracket (opening closing : Char) (lines : List String) (hprint : isBlank opening = false)
      (harray : opening ≠ ']') (hobject : opening ≠ '\x7d') :
      Starts
        (bracketed (String.singleton opening) (String.singleton closing) depth lines).toList := by
    cases lines with
    | nil => exact ⟨opening, [closing], by simp [bracketed], hprint, harray, hobject⟩
    | cons line rest =>
      exact ⟨opening, _, toList_bracketed opening closing depth (List.cons_ne_nil _ _), hprint,
        harray, hobject⟩
  cases document with
  | null => exact ⟨'n', ['u', 'l', 'l'], by simp [render], by decide, by decide, by decide⟩
  | bool value =>
    cases value with
    | true => exact ⟨'t', ['r', 'u', 'e'], by simp [render], by decide, by decide, by decide⟩
    | false => exact ⟨'f', ['a', 'l', 's', 'e'], by simp [render], by decide, by decide, by decide⟩
  | number numeral =>
    obtain ⟨c, rest, htext, hstarts⟩ := numeral.exists_text
    have hne {d : Char} (hother : startsNumber d = false) : c ≠ d :=
      ne_of_startsNumber hstarts hother
    refine ⟨c, rest, htext, ?_, hne rfl, hne rfl⟩
    simp [isBlank, hne (d := ' ') rfl, hne (d := '\n') rfl, hne (d := '\t') rfl,
      hne (d := '\r') rfl]
  | string value => exact starts_quoted value
  | array items => exact hbracket '[' ']' _ (by decide) (by decide) (by decide)
  | object members => exact hbracket '\x7b' '\x7d' _ (by decide) (by decide) (by decide)

theorem starts_member (depth : Nat) (key : String) (value : Json) :
    Starts (quoted key ++ ": " ++ render depth value).toList := by
  rw [String.toList_append, String.toList_append]
  exact ((starts_quoted key).append _).append _

theorem Starts.blockText {line : String} (h : Starts line.toList) (depth : Nat) (closing : Char)
    (rest : List String) : Starts (blockText depth closing (line :: rest)) := by
  cases rest <;> exact h.append _

/-! ### Documents -/

mutual

/-- The numerals of a document have digits behind the point. -/
def Proper : Json → Prop
  | .number numeral => numeral.Proper
  | .array items => ProperItems items
  | .object members => ProperMembers members
  | _ => True

def ProperItems : List Json → Prop
  | [] => True
  | item :: rest => Proper item ∧ ProperItems rest

def ProperMembers : List (String × Json) → Prop
  | [] => True
  | (_, value) :: rest => Proper value ∧ ProperMembers rest

end

theorem endsNumeral_cons {c : Char} (hother : c.isDigit = false ∧ c ≠ '.' ∧ c ≠ 'e' ∧ c ≠ 'E')
    (rest : List Char) : EndsNumeral (c :: rest) := by
  intro d hd
  obtain rfl := Option.some.inj hd
  exact hother

theorem proper_array {α : Type} {values : List α} {written : α → Json}
    (h : ∀ value ∈ values, Proper (written value)) : Proper (.array (values.map written)) := by
  rw [Proper]
  induction values with
  | nil => trivial
  | cons value rest ih =>
    obtain ⟨hhead, htail⟩ := List.forall_mem_cons.mp h
    exact ⟨hhead, ih htail⟩

theorem proper_object {α : Type} {values : List α} {key : α → String} {written : α → Json}
    (h : ∀ value ∈ values, Proper (written value)) :
    Proper (.object (values.map fun value => (key value, written value))) := by
  rw [Proper]
  induction values with
  | nil => trivial
  | cons value rest ih =>
    obtain ⟨hhead, htail⟩ := List.forall_mem_cons.mp h
    exact ⟨hhead, ih htail⟩

@[simp] theorem proper_ofNat (n : Nat) : Proper (ofNat n) := Numeral.proper_ofNat n

@[simp] theorem proper_ofNats (ns : List Nat) : Proper (ofNats ns) :=
  proper_array fun n _ => proper_ofNat n

@[simp] theorem proper_ofSingle (x : Float32) : Proper (ofSingle x) := by
  unfold ofSingle
  split
  · exact Numeral.proper_ofFinite _
  · trivial

theorem length_le_quoted (value : String) :
    value.toList.length + 2 ≤ (quoted value).toList.length := by
  have hle (chars : List Char) : chars.length ≤ (chars.flatMap escapeChar).length := by
    induction chars with
    | nil => exact Nat.le_refl _
    | cons c rest ih =>
      have hpos : 0 < (escapeChar c).length := by
        rcases escapeChar_cases c with ⟨hplain, -⟩ | ⟨code, hcode, -⟩
        · simp [hplain]
        · simp [hcode]
      rw [List.flatMap_cons, List.length_append, List.length_cons]
      omega
  have htext := congrArg List.length (quoted_append value [])
  have hchars := hle value.toList
  rw [List.append_nil, List.length_cons, List.length_append, List.length_singleton] at htext
  omega

/-- With so many steps everything is read that is written with half as many characters. -/
structure Reads (fuel : Nat) : Prop where
  value : ∀ (document : Json) (depth : Nat) (rest : List Char), Proper document →
    2 * (render depth document).toList.length ≤ fuel → EndsNumeral rest →
      readValue fuel ((render depth document).toList ++ rest) = (Draft.ofJson document, some rest)
  items : ∀ (item : Json) (others : List Json) (depth : Nat) (rest : List Char),
    ProperItems (item :: others) →
    2 * (blockText depth ']' (renderItems (depth + 1) (item :: others))).length < fuel →
      readItems fuel (blockText depth ']' (renderItems (depth + 1) (item :: others)) ++ rest)
        = (Draft.ofItems (item :: others), none, some rest)
  members : ∀ (member : String × Json) (others : List (String × Json)) (depth : Nat)
    (rest : List Char), ProperMembers (member :: others) →
    2 * (blockText depth '\x7d' (renderMembers (depth + 1) (member :: others))).length < fuel →
      readMembers fuel
          (blockText depth '\x7d' (renderMembers (depth + 1) (member :: others)) ++ rest)
        = (Draft.ofMembers (member :: others), none, some rest)

theorem length_render_pos (depth : Nat) (document : Json) :
    0 < (render depth document).toList.length := by
  obtain ⟨c, rest, htext, -⟩ := starts_render depth document
  rw [htext]
  exact Nat.succ_pos _

namespace Reads

variable {fuel depth : Nat} {rest : List Char} (h : Reads fuel)

include h

theorem array_succ {items : List Json} (hproper : ProperItems items)
    (hfuel : 2 * (render depth (.array items)).toList.length ≤ fuel + 1) :
    readValue (fuel + 1) ((render depth (.array items)).toList ++ rest)
      = (Draft.ofJson (.array items), some rest) := by
  cases items with
  | nil =>
    simp [render, renderItems, bracketed, readValue, dropBlanks, isBlank, Draft.ofJson,
      Draft.ofItems]
  | cons item others =>
    have htext : (render depth (.array (item :: others))).toList
        = '[' :: '\n' :: ((indent (depth + 1)).toList
          ++ blockText depth ']' (renderItems (depth + 1) (item :: others))) :=
      toList_bracketed '[' ']' depth (List.cons_ne_nil _ _)
    obtain ⟨c, next, hblock, hprint, hne, -⟩ :=
      ((starts_render (depth + 1) item).blockText depth ']'
        (renderItems (depth + 1) others)).append rest
    have hitems := h.items item others depth rest hproper (by
      rw [htext] at hfuel
      simp only [List.length_cons, List.length_append] at hfuel
      omega)
    rw [htext, List.cons_append]
    refine readValue_array ?_ hne (hblock ▸ hitems)
    rw [List.cons_append, List.append_assoc, dropBlanks_indent]
    exact hblock ▸ dropBlanks_cons hprint

theorem object_succ {members : List (String × Json)} (hproper : ProperMembers members)
    (hfuel : 2 * (render depth (.object members)).toList.length ≤ fuel + 1) :
    readValue (fuel + 1) ((render depth (.object members)).toList ++ rest)
      = (Draft.ofJson (.object members), some rest) := by
  cases members with
  | nil =>
    simp [render, renderMembers, bracketed, readValue, dropBlanks, isBlank, Draft.ofJson,
      Draft.ofMembers]
  | cons member others =>
    have htext : (render depth (.object (member :: others))).toList
        = '\x7b' :: '\n' :: ((indent (depth + 1)).toList
          ++ blockText depth '\x7d' (renderMembers (depth + 1) (member :: others))) :=
      toList_bracketed '\x7b' '\x7d' depth (List.cons_ne_nil _ _)
    obtain ⟨c, next, hblock, hprint, -, hne⟩ :=
      ((starts_member (depth + 1) member.1 member.2).blockText depth '\x7d'
        (renderMembers (depth + 1) others)).append rest
    have hmembers := h.members member others depth rest hproper (by
      rw [htext] at hfuel
      simp only [List.length_cons, List.length_append] at hfuel
      omega)
    rw [htext, List.cons_append]
    refine readValue_object ?_ hne (hblock ▸ hmembers)
    rw [List.cons_append, List.append_assoc, dropBlanks_indent]
    exact hblock ▸ dropBlanks_cons hprint

theorem value_succ {document : Json} (hproper : Proper document)
    (hfuel : 2 * (render depth document).toList.length ≤ fuel + 1) (hrest : EndsNumeral rest) :
    readValue (fuel + 1) ((render depth document).toList ++ rest)
      = (Draft.ofJson document, some rest) := by
  cases document with
  | null => simp [render, readValue, readScalar, readWord, Draft.ofJson]
  | bool value =>
    cases value <;> simp [render, readValue, readScalar, readWord, Draft.ofJson]
  | number numeral =>
    have hread := readScalar_numeral hproper hrest fuel
    obtain ⟨c, others, htext, hstarts⟩ := numeral.exists_text
    show readValue (fuel + 1) (numeral.text.toList ++ rest) = (.number numeral, some rest)
    rw [htext, List.cons_append] at hread ⊢
    rw [readValue_scalar (ne_of_startsNumber hstarts rfl) (ne_of_startsNumber hstarts rfl), hread]
  | string value =>
    have hlength := length_le_quoted value
    show readValue (fuel + 1) ((quoted value).toList ++ rest) = (.string value, some rest)
    have hfuel' : 2 * (quoted value).toList.length ≤ fuel + 1 := hfuel
    have hshort : value.toList.length < fuel := by omega
    have hread := readScalar_quoted value hshort rest
    rw [quoted_append] at hread ⊢
    rw [readValue_scalar (by decide) (by decide), hread]
  | array items => exact h.array_succ hproper hfuel
  | object members => exact h.object_succ hproper hfuel

theorem items_succ {item : Json} {others : List Json} (hproper : ProperItems (item :: others))
    (hfuel : 2 * (blockText depth ']' (renderItems (depth + 1) (item :: others))).length
      < fuel + 1) :
    readItems (fuel + 1) (blockText depth ']' (renderItems (depth + 1) (item :: others)) ++ rest)
      = (Draft.ofItems (item :: others), none, some rest) := by
  cases others with
  | nil =>
    simp only [renderItems, blockText, List.length_append, List.length_cons] at hfuel ⊢
    rw [List.append_assoc, List.cons_append]
    refine readItems_last (h.value item (depth + 1) _ hproper.1 (by omega)
      (endsNumeral_cons (by decide) _)) ?_
    rw [List.append_assoc, dropBlanks_indent]
    exact dropBlanks_cons (by decide)
  | cons next others =>
    have hblock : blockText depth ']' (renderItems (depth + 1) (item :: next :: others))
        = (render (depth + 1) item).toList ++ ',' :: '\n' :: ((indent (depth + 1)).toList
          ++ blockText depth ']' (renderItems (depth + 1) (next :: others))) := rfl
    rw [hblock] at hfuel ⊢
    simp only [List.length_append, List.length_cons] at hfuel
    obtain ⟨c, text, hnext, hprint, hne, -⟩ :=
      ((starts_render (depth + 1) next).blockText depth ']'
        (renderItems (depth + 1) others)).append rest
    have hitems := h.items next others depth rest hproper.2
      (by simp only [renderItems] at hfuel ⊢; omega)
    rw [List.append_assoc, List.cons_append, List.cons_append, List.append_assoc]
    refine readItems_more (h.value item (depth + 1) _ hproper.1 (by omega)
      (endsNumeral_cons (by decide) _)) (dropBlanks_cons (by decide)) ?_ hne (hnext ▸ hitems)
    rw [dropBlanks_indent]
    exact hnext ▸ dropBlanks_cons hprint

theorem member (key : String) {value : Json} (depth : Nat) (rest : List Char)
    (hproper : Proper value)
    (hfuel : 2 * (quoted key ++ ": " ++ render depth value).toList.length ≤ fuel)
    (hrest : EndsNumeral rest) : ∃ text,
      readKey fuel ((quoted key ++ ": " ++ render depth value).toList ++ rest)
          = (.text (rawChars key.toList) key, some (':' :: text))
        ∧ readValue fuel (dropBlanks text) = (Draft.ofJson value, some rest) := by
  have hlength := length_le_quoted key
  have htext : (quoted key ++ ": " ++ render depth value).toList ++ rest
      = (quoted key).toList ++ ':' :: ' ' :: ((render depth value).toList ++ rest) := by
    simp
  rw [String.toList_append, String.toList_append, List.length_append, List.length_append] at hfuel
  have hblank : dropBlanks (' ' :: ((render depth value).toList ++ rest))
      = dropBlanks ((render depth value).toList ++ rest) := by
    simp [dropBlanks, isBlank]
  refine ⟨_, by rw [htext]; exact readKey_quoted key (by omega) _, ?_⟩
  rw [hblank, ((starts_render depth value).append rest).dropBlanks]
  exact h.value value depth rest hproper (by omega) hrest

theorem members_succ {first : String × Json} {others : List (String × Json)}
    (hproper : ProperMembers (first :: others))
    (hfuel : 2 * (blockText depth '\x7d' (renderMembers (depth + 1) (first :: others))).length
      < fuel + 1) :
    readMembers (fuel + 1)
        (blockText depth '\x7d' (renderMembers (depth + 1) (first :: others)) ++ rest)
      = (Draft.ofMembers (first :: others), none, some rest) := by
  obtain ⟨key, value⟩ := first
  cases others with
  | nil =>
    simp only [renderMembers, blockText, List.length_append, List.length_cons] at hfuel ⊢
    obtain ⟨text, hkey, hvalue⟩ := h.member key (depth + 1)
      ('\n' :: ((indent depth).toList ++ ['\x7d']) ++ rest) hproper.1 (by omega)
      (endsNumeral_cons (by decide) _)
    rw [List.append_assoc]
    refine readMembers_last hkey hvalue ?_
    rw [List.cons_append, List.append_assoc, dropBlanks_indent]
    exact dropBlanks_cons (by decide)
  | cons next others =>
    have hblock :
        blockText depth '\x7d' (renderMembers (depth + 1) ((key, value) :: next :: others))
        = (quoted key ++ ": " ++ render (depth + 1) value).toList
          ++ ',' :: '\n' :: ((indent (depth + 1)).toList
            ++ blockText depth '\x7d' (renderMembers (depth + 1) (next :: others))) := rfl
    rw [hblock] at hfuel ⊢
    simp only [List.length_append, List.length_cons] at hfuel
    obtain ⟨c, text, hnext, hprint, -, hne⟩ :=
      ((starts_member (depth + 1) next.1 next.2).blockText depth '\x7d'
        (renderMembers (depth + 1) others)).append rest
    have hmembers := h.members next others depth rest hproper.2
      (by simp only [renderMembers] at hfuel ⊢; omega)
    obtain ⟨text', hkey, hvalue⟩ := h.member key (depth + 1)
      (',' :: '\n' :: ((indent (depth + 1)).toList
        ++ (blockText depth '\x7d' (renderMembers (depth + 1) (next :: others)) ++ rest))) hproper.1
      (by omega) (endsNumeral_cons (by decide) _)
    rw [List.append_assoc, List.cons_append, List.cons_append, List.append_assoc]
    refine readMembers_more hkey hvalue (dropBlanks_cons (by decide)) ?_ hne (hnext ▸ hmembers)
    rw [dropBlanks_indent]
    exact hnext ▸ dropBlanks_cons hprint

end Reads

theorem reads (fuel : Nat) : Reads fuel := by
  induction fuel with
  | zero =>
    refine ⟨fun document depth _ _ hfuel _ => ?_, fun _ _ _ _ _ hfuel => ?_,
      fun _ _ _ _ _ hfuel => ?_⟩
    · have := length_render_pos depth document
      omega
    · exact absurd hfuel (Nat.not_lt_zero _)
    · exact absurd hfuel (Nat.not_lt_zero _)
  | succ fuel ih =>
    exact ⟨fun _ _ _ hproper hfuel hrest => ih.value_succ hproper hfuel hrest,
      fun _ _ _ _ hproper hfuel => ih.items_succ hproper hfuel,
      fun _ _ _ _ hproper hfuel => ih.members_succ hproper hfuel⟩

/-- The text of a document is read into the draft of the document, and nothing is left over. -/
theorem ofText_text {document : Json} (hproper : Proper document) :
    Draft.ofText document.text = (Draft.ofJson document, true) := by
  have hdrop := (starts_render 0 document).dropBlanks
  have hread := (reads (2 * (render 0 document).toList.length + 2)).value document 0 [] hproper
    (by omega) nofun
  rw [List.append_nil] at hread
  unfold Draft.ofText
  rw [text, hdrop]
  dsimp only
  rw [hread]
  rfl

end TailFlow.Json
