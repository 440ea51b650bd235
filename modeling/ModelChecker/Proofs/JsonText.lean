import Mathlib.Data.List.Basic
import Mathlib.Tactic.Common
import ModelChecker.Json.Printer
import ModelChecker.Json.Reader

namespace ModelChecker.Json

/-- What is written for one character of a text. -/
inductive Escaped (c : Char) : List Char → Prop where
  | short {x : Char} (h : shortEscape? x = some c) : Escaped c ['\\', x]
  | code {x y : Char} (h : hexQuad? '0' '0' x y = some c.toNat) (hc : c.toNat < 0x20) :
    Escaped c ['\\', 'u', '0', '0', x, y]
  | plain (hquote : c ≠ '"') (hback : c ≠ '\\') (hc : ¬ c.toNat < 0x20) : Escaped c [c]

theorem hexQuad?_hexDigit : ∀ n < 0x20,
    hexQuad? '0' '0' (hexDigit (n / 16)) (hexDigit (n % 16)) = some n := by
  decide

theorem escaped (c : Char) : Escaped c (escapeChar c) := by
  unfold escapeChar
  split
  · exact .short rfl
  · exact .short rfl
  · exact .short rfl
  · exact .short rfl
  · exact .short rfl
  · exact .short rfl
  · exact .short rfl
  · rename_i hquote hback _ _ _ _ _
    split
    · rename_i hc
      exact .code (hexQuad?_hexDigit c.toNat hc) hc
    · rename_i hc
      exact .plain hquote hback hc

theorem shortEscape?_ne {c x : Char} (h : shortEscape? x = some c) : x ≠ 'u' := by
  rintro rfl
  cases h

section strings

theorem readString_plain {c : Char} (hquote : c ≠ '"') (hback : c ≠ '\\') (hc : ¬ c.toNat < 0x20)
    (rest : List Char) :
    readString (c :: rest) = (readString rest).map fun p => (c :: p.1, p.2) := by
  rw [readString, if_neg (by simp [hc, hback])]
  · exact hquote
  · exact fun _ _ _ _ _ h _ => hback h
  · exact fun _ _ h _ => hback h

theorem readString_short {c x : Char} (h : shortEscape? x = some c) (rest : List Char) :
    readString ('\\' :: x :: rest) = (readString rest).map fun p => ('\\' :: x :: p.1, p.2) := by
  rw [readString, h]
  · rfl
  · exact fun _ _ _ _ _ hu _ => shortEscape?_ne h hu

theorem readString_escapeChar (c : Char) (rest : List Char) :
    readString (escapeChar c ++ rest) =
      (readString rest).map fun p => (escapeChar c ++ p.1, p.2) := by
  have h := escaped c
  generalize escapeChar c = spelling at h ⊢
  cases h with
  | short h => exact readString_short h rest
  | code h hc =>
    simp only [List.cons_append, List.nil_append]
    rw [readString, h]
    rfl
  | plain hquote hback hc => exact readString_plain hquote hback hc rest

theorem readString_escape (text rest : List Char) :
    readString (escape text ++ '"' :: rest) = some (escape text, rest) := by
  induction text with
  | nil => rfl
  | cons c text ih =>
    have hcons : escape (c :: text) = escapeChar c ++ escape text := List.flatMap_cons
    rw [hcons, List.append_assoc, readString_escapeChar, ih]
    rfl

theorem unescape_plain {c : Char} (hback : c ≠ '\\') (rest : List Char) :
    unescape (c :: rest) = (unescape rest).map (c :: ·) := by
  rw [unescape, if_neg hback]
  · exact fun _ _ _ _ _ _ _ _ _ h _ => hback h
  · exact fun _ _ _ _ _ h _ => hback h
  · exact fun _ _ h _ => hback h

theorem unescape_short {c x : Char} (h : shortEscape? x = some c) (rest : List Char) :
    unescape ('\\' :: x :: rest) = (unescape rest).map (c :: ·) := by
  rw [unescape, h]
  · exact fun _ _ _ _ _ _ _ _ _ hu _ => shortEscape?_ne h hu
  · exact fun _ _ _ _ _ hu _ => shortEscape?_ne h hu

theorem unescape_code {a b c d : Char} {n : Nat} (h : hexQuad? a b c d = some n)
    (hn : n < 0xD800) (rest : List Char) :
    unescape ('\\' :: 'u' :: a :: b :: c :: d :: rest) =
      (unescape rest).map (Char.ofNat n :: ·) := by
  have hupper : ¬ (0xD800 ≤ n ∧ n < 0xDC00) := by omega
  have hlower : ¬ (0xDC00 ≤ n ∧ n < 0xE000) := by omega
  have hhalf : ¬ (0xD800 ≤ n ∧ n < 0xE000) := by omega
  by_cases hmore : ∃ e f g i more, rest = '\\' :: 'u' :: e :: f :: g :: i :: more
  · obtain ⟨e, f, g, i, more, rfl⟩ := hmore
    rw [unescape, h]
    simp only [if_neg hupper, if_neg hlower]
  · rw [unescape, h]
    · simp only [if_neg hhalf]
    · exact fun e f g i more hrest => hmore ⟨e, f, g, i, more, hrest⟩

theorem unescape_escapeChar (c : Char) (rest : List Char) :
    unescape (escapeChar c ++ rest) = (unescape rest).map (c :: ·) := by
  have h := escaped c
  generalize escapeChar c = spelling at h ⊢
  cases h with
  | short h => exact unescape_short h rest
  | code h hc =>
    have hcode := unescape_code h (by omega) rest
    rw [Char.ofNat_toNat] at hcode
    exact hcode
  | plain hquote hback hc => exact unescape_plain hback rest

theorem unescape_escape (text : List Char) : unescape (escape text) = some text := by
  induction text with
  | nil => rfl
  | cons c text ih =>
    have hcons : escape (c :: text) = escapeChar c ++ escape text := List.flatMap_cons
    rw [hcons, unescape_escapeChar, ih]
    rfl

def IsSpelling (spelling : String) : Prop := ∃ text, spelling.toList = escape text

theorem IsSpelling.readString {spelling : String} (h : IsSpelling spelling) (rest : List Char) :
    readString (spelling.toList ++ '"' :: rest) = some (spelling.toList, rest) := by
  obtain ⟨text, htext⟩ := h
  rw [htext]
  exact readString_escape text rest

end strings

section numbers

theorem isDigit_of_mem_toDigits {n : Nat} : ∀ c ∈ Nat.toDigits 10 n, isDigit c = true := by
  intro c hc
  have hdigit := Nat.isDigit_of_mem_toDigits (by omega) (by omega) hc
  simpa [Char.isDigit, isDigit, Char.le_def] using hdigit

theorem toDigits_eq_cons (n : Nat) :
    ∃ c cs, Nat.toDigits 10 n = c :: cs ∧ isDigit c = true := by
  cases hd : Nat.toDigits 10 n with
  | nil => exact absurd hd Nat.toDigits_ne_nil
  | cons c cs => exact ⟨c, cs, rfl, isDigit_of_mem_toDigits c (hd ▸ List.mem_cons_self)⟩

theorem ne_of_isDigit {c x : Char} (hc : isDigit c = true) (hx : isDigit x = false) : c ≠ x := by
  rintro rfl
  exact Bool.false_ne_true (hx.symm.trans hc)

theorem escapeChar_of_isDigit {c : Char} (hc : isDigit c = true) : escapeChar c = [c] := by
  have h := escaped c
  generalize escapeChar c = spelling at h ⊢
  cases h with
  | short h =>
    unfold shortEscape? at h
    split at h
    all_goals cases h
    all_goals exact absurd hc (by decide)
  | code _ hlow =>
    simp only [isDigit, Char.le_def, UInt32.le_iff_toNat_le, decide_eq_true_eq] at hc
    change c.val.toNat < 0x20 at hlow
    have hzero : '0'.val.toNat = 48 := rfl
    omega
  | plain => rfl

theorem isSpelling_toString (n : Nat) : IsSpelling (toString n) := by
  have hall : ∀ l : List Char, (∀ c ∈ l, isDigit c = true) → escape l = l := by
    intro l hl
    induction l with
    | nil => rfl
    | cons c l ih =>
      obtain ⟨hc, hl⟩ := List.forall_mem_cons.1 hl
      rw [escape, List.flatMap_cons, escapeChar_of_isDigit hc]
      exact congrArg _ (ih hl)
  refine ⟨Nat.toDigits 10 n, ?_⟩
  rw [hall _ isDigit_of_mem_toDigits, Nat.toString_eq_ofList_toDigits, String.toList_ofList]

theorem natural?_toString (n : Nat) : natural? (toString n) = some n := by
  have hvalue : digitsValue (Nat.toDigits 10 n) = n := by
    rw [digitsValue]
    refine Eq.trans ?_ Nat.ofDigitChars_ten_toDigits
    rw [Nat.ofDigitChars_eq_foldl]
    simp only [Nat.mul_comm]
    rfl
  have hall : (Nat.toDigits 10 n).all isDigit = true := List.all_eq_true.2 isDigit_of_mem_toDigits
  have hne : (Nat.toDigits 10 n).isEmpty = false := by
    simp
  rw [Nat.toString_eq_ofList_toDigits]
  simp only [natural?, String.toList_ofList, hne, hall, hvalue, Bool.not_false, Bool.and_self,
    if_true]

theorem toDigits_ne_zero_cons {n : Nat} (hn : 0 < n) (rest : List Char) :
    Nat.toDigits 10 n ≠ '0' :: rest := by
  induction n using Nat.strongRecOn generalizing rest with
  | ind n ih =>
    by_cases hlt : n < 10
    · rw [Nat.toDigits_of_lt_base hlt]
      intro h
      have hzero : ∀ m < 10, 0 < m → Nat.digitChar m ≠ '0' := by decide
      exact hzero n hlt hn (List.cons.inj h).1
    · rw [Nat.toDigits_of_base_le (by omega) (by omega)]
      intro h
      obtain ⟨c, cs, hcs, -⟩ := toDigits_eq_cons (n / 10)
      rw [hcs] at h
      obtain rfl := (List.cons.inj h).1
      exact ih (n / 10) (by omega) (by omega) cs hcs

/-- What can follow a value in an array, in an object or at the end of the text. -/
def Ends : List Char → Prop
  | [] => True
  | c :: _ => c = ',' ∨ c = ']' ∨ c = '\x7d'

theorem readDigits_append {ds rest : List Char} (hds : ds ≠ []) (hd : ∀ c ∈ ds, isDigit c = true)
    (hr : Ends rest) : readDigits (ds ++ rest) = some (ds, rest) := by
  have htake : rest.takeWhile isDigit = [] ∧ rest.dropWhile isDigit = rest := by
    cases rest with
    | nil => exact ⟨rfl, rfl⟩
    | cons c rest =>
      have hc : isDigit c = false := by
        rcases hr with rfl | rfl | rfl <;> rfl
      exact ⟨List.takeWhile_cons_of_neg (by simp [hc]), List.dropWhile_cons_of_neg (by simp [hc])⟩
  unfold readDigits
  rw [List.takeWhile_append_of_pos hd, List.dropWhile_append_of_pos hd, htake.1, htake.2,
    List.append_nil]
  cases ds with
  | nil => exact absurd rfl hds
  | cons d ds => rfl

theorem readWhole_toDigits (n : Nat) {rest : List Char} (hr : Ends rest) :
    readWhole (Nat.toDigits 10 n ++ rest) = some (Nat.toDigits 10 n, rest) := by
  by_cases hn : n = 0
  · subst hn
    rfl
  · have hread := readDigits_append Nat.toDigits_ne_nil (isDigit_of_mem_toDigits (n := n)) hr
    have hlead := toDigits_ne_zero_cons (Nat.pos_of_ne_zero hn)
    obtain ⟨c, cs, hcs, -⟩ := toDigits_eq_cons n
    rw [hcs] at hread hlead ⊢
    rw [List.cons_append] at hread ⊢
    rw [readWhole]
    · exact hread
    · intro more h
      exact hlead cs (congrArg (· :: cs) (List.cons.inj h).1)

theorem readFraction_of_ends {rest : List Char} (hr : Ends rest) :
    readFraction rest = some ([], rest) := by
  cases rest with
  | nil => rfl
  | cons c rest => rcases hr with rfl | rfl | rfl <;> rfl

theorem readExponent_of_ends {rest : List Char} (hr : Ends rest) :
    readExponent rest = some ([], rest) := by
  cases rest with
  | nil => rfl
  | cons c rest => rcases hr with rfl | rfl | rfl <;> rfl

theorem readNumber_toDigits (n : Nat) {rest : List Char} (hr : Ends rest) :
    readNumber (Nat.toDigits 10 n ++ rest) = some (Nat.toDigits 10 n, rest) := by
  have hunsigned : readUnsigned (Nat.toDigits 10 n ++ rest) = some (Nat.toDigits 10 n, rest) := by
    simp [readUnsigned, readWhole_toDigits n hr, readFraction_of_ends hr, readExponent_of_ends hr]
  obtain ⟨c, cs, hcs, hc⟩ := toDigits_eq_cons n
  rw [hcs] at hunsigned ⊢
  rw [List.cons_append] at hunsigned ⊢
  rw [readNumber]
  · exact hunsigned
  · intro more h
    exact ne_of_isDigit hc rfl (List.cons.inj h).1

end numbers

/-- The strings of the value, its keys too, are written for some text, and its numbers are written
for some natural number. -/
inductive Spelled : Json → Prop where
  | null : Spelled .null
  | bool (b : Bool) : Spelled (.bool b)
  | number (n : Nat) : Spelled (ofNat n)
  | string {spelling : String} (h : IsSpelling spelling) : Spelled (.string spelling)
  | array {items : List Json} (h : ∀ j ∈ items, Spelled j) : Spelled (.array items)
  | object {members : List (String × Json)} (hk : ∀ m ∈ members, IsSpelling m.1)
    (hv : ∀ m ∈ members, Spelled m.2) : Spelled (.object members)

theorem compactChars_ofNat (n : Nat) : (ofNat n).compactChars = Nat.toDigits 10 n := by
  simp [ofNat, compactChars]

theorem Spelled.compactChars_eq {j : Json} (h : Spelled j) :
    ∃ c cs, j.compactChars = c :: cs ∧ isBlank c = false ∧ c ≠ ']' := by
  cases h with
  | null => exact ⟨_, _, rfl, rfl, by decide⟩
  | bool b => cases b <;> exact ⟨_, _, rfl, rfl, by decide⟩
  | number n =>
    obtain ⟨c, cs, hcs, hc⟩ := toDigits_eq_cons n
    refine ⟨c, cs, (compactChars_ofNat n).trans hcs, ?_, ne_of_isDigit hc rfl⟩
    simp [isBlank, ne_of_isDigit hc (x := ' ') rfl, ne_of_isDigit hc (x := '\t') rfl,
      ne_of_isDigit hc (x := '\n') rfl, ne_of_isDigit hc (x := '\r') rfl]
  | string => exact ⟨_, _, rfl, rfl, by decide⟩
  | @array items => cases items <;> exact ⟨_, _, rfl, rfl, by decide⟩
  | @object members => cases members <;> exact ⟨_, _, rfl, rfl, by decide⟩

theorem skipBlanks_cons {c : Char} (h : isBlank c = false) (cs : List Char) :
    skipBlanks (c :: cs) = c :: cs :=
  List.dropWhile_cons_of_neg (by simp [h])

def Reads (j : Json) : Prop :=
  ∀ n rest, Ends rest → j.compactChars.length ≤ n + 1 →
    readValue (n + 1) (j.compactChars ++ rest) = some (j, rest)

theorem reads_number (n : Nat) : Reads (ofNat n) := by
  intro k rest hr _
  obtain ⟨c, cs, hcs, hblank, -⟩ := (Spelled.number n).compactChars_eq
  obtain ⟨d, ds, hds, hd⟩ := toDigits_eq_cons n
  have hread := readNumber_toDigits n hr
  rw [compactChars_ofNat] at hcs ⊢
  obtain ⟨rfl, rfl⟩ := List.cons.inj (hcs.symm.trans hds)
  rw [hcs, List.cons_append] at hread ⊢
  rw [readValue, skipBlanks_cons hblank]
  -- a digit starts nothing but a number
  split
  all_goals try exact absurd (List.cons.inj ‹_›).1 (ne_of_isDigit hd rfl)
  rw [hread, ← hcs, Option.map_some, ofNat, Nat.toString_eq_ofList_toDigits]

theorem reads_string {spelling : String} (h : IsSpelling spelling) : Reads (.string spelling) := by
  intro k rest _ _
  simp [compactChars, quote, readValue, skipBlanks_cons (c := '"') rfl, h.readString]

theorem readItems_compactChars {item : Json} {items : List Json}
    (h : ∀ j ∈ item :: items, Spelled j ∧ Reads j) {n : Nat} (rest : List Char)
    (hn : (item.compactChars ++ compactItems items).length ≤ n) :
    readItems n (item.compactChars ++ (compactItems items ++ rest)) =
      some (item :: items, rest) := by
  induction items generalizing item n with
  | nil =>
    obtain ⟨hs, hr⟩ := h item List.mem_cons_self
    obtain ⟨c, cs, hcs, -⟩ := hs.compactChars_eq
    have hpos : 0 < item.compactChars.length := by simp [hcs]
    simp only [compactItems, List.length_append, List.length_singleton] at hn
    obtain ⟨n, rfl⟩ : ∃ k, n = k + 2 := ⟨n - 2, by omega⟩
    have hread := hr n (']' :: rest) (.inr (.inl rfl)) (by omega)
    simp [readItems, compactItems, hread, skipBlanks_cons (c := ']') rfl]
  | cons next items ih =>
    obtain ⟨hs, hr⟩ := h item List.mem_cons_self
    obtain ⟨c, cs, hcs, -⟩ := hs.compactChars_eq
    have hpos : 0 < item.compactChars.length := by simp [hcs]
    simp only [compactItems, List.length_append, List.length_cons] at hn
    obtain ⟨n, rfl⟩ : ∃ k, n = k + 2 := ⟨n - 2, by omega⟩
    have hread := hr n (',' :: (next.compactChars ++ (compactItems items ++ rest))) (.inl rfl)
      (by omega)
    have hrest := ih (n := n + 1) (fun j hj => h j (List.mem_cons_of_mem _ hj))
      (by rw [List.length_append]; omega)
    rw [readItems]
    simp [compactItems, hread, skipBlanks_cons (c := ',') rfl, hrest]

theorem readMembers_last {key : String} {value : Json} (hk : IsSpelling key) (hv : Reads value)
    {n : Nat} (hn : value.compactChars.length ≤ n + 1) (rest : List Char) :
    readMembers (n + 2) (quote key ++ ':' :: (value.compactChars ++ '\x7d' :: rest)) =
      some ([(key, value)], rest) := by
  have hread := hv n ('\x7d' :: rest) (.inr (.inr rfl)) hn
  simp [readMembers, quote, skipBlanks_cons (c := '"') rfl, hk.readString,
    skipBlanks_cons (c := ':') rfl, hread, skipBlanks_cons (c := '\x7d') rfl]

theorem readMembers_more {key : String} {value : Json} (hk : IsSpelling key) (hv : Reads value)
    {n : Nat} (hn : value.compactChars.length ≤ n + 1) (rest : List Char) :
    readMembers (n + 2) (quote key ++ ':' :: (value.compactChars ++ ',' :: rest)) =
      (readMembers (n + 1) rest).map fun p => ((key, value) :: p.1, p.2) := by
  have hread := hv n (',' :: rest) (.inl rfl) hn
  rw [readMembers]
  simp [quote, skipBlanks_cons (c := '"') rfl, hk.readString, skipBlanks_cons (c := ':') rfl,
    hread, skipBlanks_cons (c := ',') rfl]

theorem readMembers_compactChars {key : String} {value : Json} {members : List (String × Json)}
    (h : ∀ m ∈ (key, value) :: members, IsSpelling m.1 ∧ Reads m.2) {n : Nat} (rest : List Char)
    (hn : (quote key ++ ':' :: (value.compactChars ++ compactMembers members)).length ≤ n) :
    readMembers n (quote key ++ ':' :: (value.compactChars ++ (compactMembers members ++ rest))) =
      some ((key, value) :: members, rest) := by
  induction members generalizing key value n with
  | nil =>
    obtain ⟨hk, hv⟩ : IsSpelling key ∧ Reads value := h (key, value) List.mem_cons_self
    simp only [compactMembers, List.length_append, List.length_cons, List.length_nil] at hn
    obtain ⟨n, rfl⟩ : ∃ k, n = k + 2 := ⟨n - 2, by omega⟩
    exact readMembers_last hk hv (by omega) rest
  | cons next members ih =>
    obtain ⟨key', value'⟩ := next
    obtain ⟨hk, hv⟩ : IsSpelling key ∧ Reads value := h (key, value) List.mem_cons_self
    simp only [compactMembers, List.length_append, List.length_cons] at hn
    obtain ⟨n, rfl⟩ : ∃ k, n = k + 2 := ⟨n - 2, by omega⟩
    have hrest := ih (n := n + 1) (fun m hm => h m (List.mem_cons_of_mem _ hm))
      (by simp only [List.length_append, List.length_cons]; omega)
    simp only [compactMembers, List.cons_append, List.append_assoc]
    rw [readMembers_more hk hv (by omega), hrest]
    rfl

theorem reads_array {items : List Json} (h : ∀ j ∈ items, Spelled j ∧ Reads j) :
    Reads (.array items) := by
  intro k rest _ hk
  cases items with
  | nil =>
    simp [compactChars, readValue, skipBlanks_cons (c := '[') rfl, skipBlanks_cons (c := ']') rfl]
  | cons item items =>
    obtain ⟨c, cs, hcs, hblank, hclose⟩ := (h item List.mem_cons_self).1.compactChars_eq
    rw [compactChars, List.cons_append, List.length_cons] at hk
    have hread := readItems_compactChars h rest (Nat.le_of_succ_le_succ hk)
    rw [compactChars, List.cons_append, List.cons_append, List.append_assoc, readValue,
      skipBlanks_cons rfl]
    rw [hcs, List.cons_append] at hread ⊢
    simp only [skipBlanks_cons hblank]
    split
    · exact absurd (List.cons.inj ‹_›).1 hclose
    · rw [hread]
      rfl

theorem reads_object {members : List (String × Json)}
    (h : ∀ m ∈ members, IsSpelling m.1 ∧ Reads m.2) : Reads (.object members) := by
  intro k rest _ hk
  cases members with
  | nil =>
    simp [compactChars, readValue, skipBlanks_cons (c := '\x7b') rfl,
      skipBlanks_cons (c := '\x7d') rfl]
  | cons m members =>
    obtain ⟨key, value⟩ := m
    simp only [compactChars, List.length_append, List.length_cons] at hk
    have hread := readMembers_compactChars (n := k) h rest
      (by simp only [List.length_append, List.length_cons]; omega)
    simp only [compactChars, quote, List.cons_append, List.append_assoc, List.nil_append]
      at hread ⊢
    simp [readValue, skipBlanks_cons (c := '\x7b') rfl, skipBlanks_cons (c := '"') rfl, hread]

theorem Spelled.reads {j : Json} (h : Spelled j) : Reads j := by
  induction h with
  | null =>
    intro k rest _ _
    simp [compactChars, readValue, skipBlanks_cons (c := 'n') rfl]
  | bool b =>
    intro k rest _ _
    cases b with
    | true => simp [compactChars, readValue, skipBlanks_cons (c := 't') rfl]
    | false => simp [compactChars, readValue, skipBlanks_cons (c := 'f') rfl]
  | number n => exact reads_number n
  | string h => exact reads_string h
  | array h ih => exact reads_array fun j hj => ⟨h j hj, ih j hj⟩
  | object hk _ ih => exact reads_object fun m hm => ⟨hk m hm, ih m hm⟩

theorem Spelled.parse_compact {j : Json} (h : Spelled j) : parse j.compact = some j := by
  have hread := h.reads j.compactChars.length [] trivial (Nat.le_succ _)
  rw [List.append_nil] at hread
  unfold parse compact
  simp only [String.toList_ofList, hread]
  rfl

end ModelChecker.Json
