import Mathlib.Data.List.Induction
import QueryMarkup.Proofs.Text.Reference

/-!
# The grammar of references

Which names between `&` and `;` refer to a character, and what a text says when every reference
in it stands for its character. Reading follows this grammar, with one addition: before the
digits of a number there may be a plus sign. A text in which no number is so written is read as
the grammar without signs says.
-/
namespace QueryMarkup.Text

/-! ## Numbers -/

/-- The digits of both cases, each with its value. -/
def digitTable : List (Char × Nat) :=
  [('0', 0), ('1', 1), ('2', 2), ('3', 3), ('4', 4), ('5', 5), ('6', 6), ('7', 7), ('8', 8), ('9', 9),
    ('a', 10), ('b', 11), ('c', 12), ('d', 13), ('e', 14), ('f', 15),
    ('A', 10), ('B', 11), ('C', 12), ('D', 13), ('E', 14), ('F', 15)]

/-- One or more digits of a radix, and the number that they write. -/
inductive Numeral (radix : Nat) : List Char → Nat → Prop
  | digit {c : Char} {v : Nat} (known : (c, v) ∈ digitTable) (small : v < radix) : Numeral radix [c] v
  | snoc {cs : List Char} {n : Nat} {c : Char} {v : Nat} (front : Numeral radix cs n)
      (known : (c, v) ∈ digitTable) (small : v < radix) : Numeral radix (cs ++ [c]) (n * radix + v)

/-- The table lists the values of the digits. -/
theorem digitValue_eq_some {c : Char} {v : Nat} : digitValue c = some v ↔ (c, v) ∈ digitTable := by
  constructor
  · intro h
    have below : c.toNat < 103 := by
      unfold digitValue at h
      split at h
      · rename_i digit
        have le : c.toNat ≤ 57 := digit.2
        omega
      · split at h
        · rename_i lower
          have le : c.toNat ≤ 102 := lower.2
          omega
        · split at h
          · rename_i upper
            have le : c.toNat ≤ 70 := upper.2
            omega
          · cases h
    have all : ∀ n < 103, ∀ v ∈ digitValue (Char.ofNat n), (Char.ofNat n, v) ∈ digitTable := by decide
    have here := all c.toNat below v
    rw [Char.ofNat_toNat] at here
    exact here h
  · intro h
    have all : ∀ p ∈ digitTable, digitValue p.1 = some p.2 := by decide
    exact all (c, v) h

theorem readDigits_concat (radix acc : Nat) (cs : List Char) (c : Char) :
    readDigits radix acc (cs ++ [c]) =
      (readDigits radix acc cs).bind fun n =>
        (digitValue c).bind fun v => if v < radix then some (n * radix + v) else none := by
  induction cs generalizing acc with
  | nil => rfl
  | cons d cs ih =>
    simp only [List.cons_append, readDigits]
    cases digitValue d with
    | none => rfl
    | some v =>
      by_cases small : v < radix
      · simp [small, ih]
      · simp [small]

theorem readNatural_eq_readDigits {radix : Nat} {cs : List Char} (h : cs ≠ []) :
    readNatural radix cs = readDigits radix 0 cs := by
  cases cs with
  | nil => exact absurd rfl h
  | cons c cs => rfl

/-- Reading a natural number accepts the numerals and gives their value. -/
theorem readNatural_eq_some {radix n : Nat} {cs : List Char} :
    readNatural radix cs = some n ↔ Numeral radix cs n := by
  constructor
  · induction cs using List.reverseRecOn generalizing n with
    | nil => simp [readNatural]
    | append_singleton cs c ih =>
      intro h
      rw [readNatural_eq_readDigits (by simp), readDigits_concat] at h
      obtain ⟨m, front, h⟩ := Option.bind_eq_some_iff.mp h
      obtain ⟨v, value, h⟩ := Option.bind_eq_some_iff.mp h
      split at h
      · rename_i small
        have known := digitValue_eq_some.mp value
        cases h
        by_cases empty : cs = []
        · subst empty
          cases front
          simpa using Numeral.digit known small
        · rw [← readNatural_eq_readDigits empty] at front
          exact (ih front).snoc known small
      · cases h
  · intro h
    induction h with
    | digit known small => simp [readNatural, readDigits, digitValue_eq_some.mpr known, small]
    | @snoc cs n c v front known small ih =>
      have some : cs ≠ [] := by
        rintro rfl
        cases ih
      rw [readNatural_eq_readDigits some] at ih
      rw [readNatural_eq_readDigits (by simp), readDigits_concat, ih]
      simp [digitValue_eq_some.mpr known, small]

/-! ## References -/

/-- The names of the characters with a meaning in markup. -/
def predefined : List (List Char × Char) :=
  [(['a', 'm', 'p'], '&'), (['l', 't'], '<'), (['g', 't'], '>'), (['q', 'u', 'o', 't'], '"'),
    (['a', 'p', 'o', 's'], '\'')]

/-- The names that refer to a character, when the digits of a number may have one of the signs
before them: the predefined names, and the numbers of characters in decimal and, behind an `x`,
in hexadecimal. -/
inductive Names (signs : List (List Char)) : List Char → Char → Prop
  | predefined {name : List Char} {c : Char} (known : (name, c) ∈ predefined) : Names signs name c
  | decimal {sign digits : List Char} {c : Char} (signed : sign ∈ signs)
      (number : Numeral 10 digits c.toNat) : Names signs ('#' :: (sign ++ digits)) c
  | hexadecimal {sign digits : List Char} {c : Char} (signed : sign ∈ signs)
      (number : Numeral 16 digits c.toNat) : Names signs ('#' :: 'x' :: (sign ++ digits)) c

/-- Numbers are written without a sign. -/
def unsigned : List (List Char) := [[]]

/-- A plus sign may stand before the digits of a number. -/
def plusSigned : List (List Char) := [[], ['+']]

theorem charOfCode_eq_some {n : Nat} {c : Char} : charOfCode n = some c ↔ n = c.toNat := by
  by_cases valid : n.isValidChar
  · rw [charOfCode, dif_pos valid, Option.some_inj]
    constructor
    · rintro rfl
      rfl
    · rintro rfl
      rfl
  · rw [charOfCode, dif_neg valid]
    constructor
    · exact nofun
    · rintro rfl
      exact absurd c.valid valid

theorem Numeral.mem_digitTable {radix n : Nat} {cs : List Char} (h : Numeral radix cs n) :
    ∀ c ∈ cs, c ∈ digitTable.map Prod.fst := by
  induction h with
  | digit known small => simpa using ⟨_, known⟩
  | snoc front known small ih =>
    intro d hd
    rcases List.mem_append.mp hd with earlier | last
    · exact ih d earlier
    · exact List.mem_singleton.mp last ▸ List.mem_map.mpr ⟨_, known, rfl⟩

/-- No numeral begins like a sign. -/
theorem Numeral.ne_cons {radix n : Nat} {cs : List Char} (h : Numeral radix cs n) {c : Char}
    (other : c ∉ digitTable.map Prod.fst) (rest : List Char) : cs ≠ c :: rest := by
  rintro rfl
  exact other (h.mem_digitTable c List.mem_cons_self)

theorem readUnsigned_cons_plus (radix limit : Nat) (digits : List Char) :
    readUnsigned radix limit ('+' :: digits) =
      (readNatural radix digits).bind fun n => if n ≤ limit then some n else none := rfl

theorem readUnsigned_plain {radix limit : Nat} {cs : List Char} (h : ∀ digits, cs ≠ '+' :: digits) :
    readUnsigned radix limit cs =
      (readNatural radix cs).bind fun n => if n ≤ limit then some n else none := by
  unfold readUnsigned
  split
  · exact absurd rfl (h _)
  · rfl

theorem bind_limit_eq_some {limit n : Nat} {read : Option Nat} :
    (read.bind fun m => if m ≤ limit then some m else none) = some n ↔
      n ≤ limit ∧ read = some n := by
  constructor
  · intro h
    obtain ⟨m, found, bounded⟩ := Option.bind_eq_some_iff.mp h
    split at bounded
    · rename_i small
      cases bounded
      exact ⟨small, found⟩
    · cases bounded
  · rintro ⟨small, rfl⟩
    exact if_pos small

/-- A number within a limit is a numeral, with or without a plus sign before it. -/
theorem readUnsigned_eq_some {radix limit n : Nat} {cs : List Char} :
    readUnsigned radix limit cs = some n ↔
      n ≤ limit ∧ ∃ sign ∈ plusSigned, ∃ digits, cs = sign ++ digits ∧ Numeral radix digits n := by
  constructor
  · intro h
    by_cases plus : ∃ digits, cs = '+' :: digits
    · obtain ⟨digits, rfl⟩ := plus
      rw [readUnsigned_cons_plus, bind_limit_eq_some, readNatural_eq_some] at h
      exact ⟨h.1, ['+'], by decide, digits, rfl, h.2⟩
    · rw [readUnsigned_plain (not_exists.mp plus), bind_limit_eq_some, readNatural_eq_some] at h
      exact ⟨h.1, [], by decide, cs, rfl, h.2⟩
  · rintro ⟨small, sign, signed, digits, rfl, number⟩
    rcases List.mem_cons.mp signed with rfl | second
    · rw [List.nil_append, readUnsigned_plain (number.ne_cons (by decide)), bind_limit_eq_some]
      exact ⟨small, readNatural_eq_some.mpr number⟩
    · cases List.mem_singleton.mp second
      exact bind_limit_eq_some.mpr ⟨small, readNatural_eq_some.mpr number⟩

/-- A name is resolved exactly when it refers to a character, a plus sign being allowed. -/
theorem resolveReference_eq_some {name : List Char} {c : Char} :
    resolveReference name = some c ↔ Names plusSigned name c := by
  have coded {radix : Nat} {digits : List Char} :
      (readUnsigned radix 0xFFFFFFFF digits).bind charOfCode = some c ↔
        ∃ sign ∈ plusSigned, ∃ rest, digits = sign ++ rest ∧ Numeral radix rest c.toNat := by
    have small : c.toNat ≤ 0xFFFFFFFF := by
      have valid := c.valid
      simp only [UInt32.isValidChar, Nat.isValidChar] at valid
      have code : c.toNat = c.val.toNat := rfl
      omega
    constructor
    · intro h
      obtain ⟨n, read, code⟩ := Option.bind_eq_some_iff.mp h
      exact charOfCode_eq_some.mp code ▸ (readUnsigned_eq_some.mp read).2
    · intro h
      exact Option.bind_eq_some_iff.mpr
        ⟨c.toNat, readUnsigned_eq_some.mpr ⟨small, h⟩, charOfCode_eq_some.mpr rfl⟩
  constructor
  · intro h
    unfold resolveReference at h
    split at h
    case h_6 =>
      obtain ⟨sign, signed, rest, rfl, number⟩ := coded.mp h
      exact .hexadecimal signed number
    case h_7 =>
      obtain ⟨sign, signed, rest, rfl, number⟩ := coded.mp h
      exact .decimal signed number
    case h_8 => cases h
    all_goals
      cases h
      exact .predefined (by decide)
  · intro h
    cases h with
    | predefined known =>
      have all : ∀ p ∈ predefined, resolveReference p.1 = some p.2 := by decide
      exact all _ known
    | @decimal sign digits c signed number =>
      have plain : ∀ rest, sign ++ digits ≠ 'x' :: rest := by
        intro rest
        rcases List.mem_cons.mp signed with rfl | second
        · exact number.ne_cons (by decide) rest
        · cases List.mem_singleton.mp second
          simp
      rw [resolveReference.eq_7 _ (by simpa using plain)]
      exact coded.mpr ⟨sign, signed, digits, rfl, number⟩
    | @hexadecimal sign digits c signed number =>
      exact coded.mpr ⟨sign, signed, digits, rfl, number⟩

theorem semicolon_not_mem_of_names {name : List Char} {c : Char} (h : Names plusSigned name c) :
    ';' ∉ name := by
  have inNumeral {radix n : Nat} {sign digits : List Char} (signed : sign ∈ plusSigned)
      (number : Numeral radix digits n) : ';' ∉ sign ++ digits := by
    intro mem
    rcases List.mem_append.mp mem with inSign | inDigits
    · have none : ∀ sign ∈ plusSigned, ';' ∉ sign := by decide
      exact none sign signed inSign
    · exact absurd (number.mem_digitTable _ inDigits) (by decide)
  cases h with
  | predefined known =>
    have none : ∀ p ∈ predefined, ';' ∉ p.1 := by decide
    exact none _ known
  | decimal signed number => simpa using inNumeral signed number
  | hexadecimal signed number => simpa using inNumeral signed number

/-! ## Texts -/

/-- What a text says: from left to right every reference stands for its character, and every
other character for itself. What stands for a character is not read again. -/
inductive Decoded (names : List Char → Char → Prop) : List Char → List Char → Prop
  | nil : Decoded names [] []
  | reference {name rest out : List Char} {c : Char} (refers : names name c)
      (later : Decoded names rest out) : Decoded names ('&' :: (name ++ ';' :: rest)) (c :: out)
  | kept {c : Char} {rest out : List Char}
      (plain : ∀ name d, names name d → ¬ '&' :: (name ++ [';']) <+: c :: rest)
      (later : Decoded names rest out) : Decoded names (c :: rest) (c :: out)

/-- A text without references says itself and nothing else. -/
theorem decoded_iff_eq {names : List Char → Char → Prop} {cs out : List Char}
    (none : ∀ name c, names name c → ¬ '&' :: (name ++ [';']) <:+: cs) :
    Decoded names cs out ↔ out = cs := by
  constructor
  · intro h
    induction h with
    | nil => rfl
    | @reference name rest out c refers later ih =>
      exact absurd ⟨[], rest, by simp⟩ (none name c refers)
    | @kept c rest out plain later ih =>
      have behind : rest <:+: c :: rest := (List.suffix_cons c rest).isInfix
      rw [ih fun name d refers inside => none name d refers (inside.trans behind)]
  · rintro rfl
    induction out with
    | nil => exact .nil
    | cons c out ih =>
      have behind : out <:+: c :: out := (List.suffix_cons c out).isInfix
      refine .kept ?_ (ih fun name d refers inside => none name d refers (inside.trans behind))
      exact fun name d refers starts => none name d refers starts.isInfix

/-- Only the references that stand in a text matter for what it says. -/
theorem Decoded.congr {names others : List Char → Char → Prop} {cs out : List Char}
    (same : ∀ name c, '&' :: (name ++ [';']) <:+: cs → (names name c ↔ others name c))
    (h : Decoded names cs out) : Decoded others cs out := by
  induction h with
  | nil => exact .nil
  | @reference name rest out c refers later ih =>
    have whole : '&' :: (name ++ ';' :: rest) = '&' :: (name ++ [';']) ++ rest := by simp
    have here : '&' :: (name ++ [';']) <:+: '&' :: (name ++ ';' :: rest) :=
      whole ▸ (List.prefix_append _ _).isInfix
    have behind : rest <:+: '&' :: (name ++ ';' :: rest) := whole ▸ (List.suffix_append _ _).isInfix
    exact .reference ((same name c here).mp refers) (ih fun n d inside => same n d (inside.trans behind))
  | @kept c rest out plain later ih =>
    have behind : rest <:+: c :: rest := (List.suffix_cons c rest).isInfix
    refine .kept ?_ (ih fun n d inside => same n d (inside.trans behind))
    intro name d refers starts
    exact plain name d ((same name d starts.isInfix).mpr refers) starts

theorem takeReference_eq_some {cs rest : List Char} {c : Char} :
    takeReference cs = some (c, rest) ↔
      ∃ name, Names plusSigned name c ∧ cs = name ++ ';' :: rest := by
  constructor
  · intro h
    unfold takeReference at h
    have whole := @List.takeWhile_append_dropWhile _ (· ≠ ';') cs
    have head := List.head?_dropWhile_not (· ≠ ';') cs
    split at h
    · cases h
    · rename_i d tail dropped
      obtain ⟨e, named, pair⟩ := Option.map_eq_some_iff.mp h
      cases pair
      rw [dropped] at whole head
      have semicolon : d = ';' := by simpa using head
      exact ⟨_, resolveReference_eq_some.mp named, semicolon ▸ whole.symm⟩
  · rintro ⟨name, refers, rfl⟩
    exact takeReference_append (semicolon_not_mem_of_names refers)
      (resolveReference_eq_some.mpr refers) rest

/-- An ampersand that starts no reference is kept. -/
theorem decodeChars_amp {cs : List Char} (h : takeReference cs = none) :
    decodeChars ('&' :: cs) = '&' :: decodeChars cs := by
  rw [decodeChars, if_pos rfl]
  split
  · rename_i e
    rw [h] at e
    cases e
  · rfl

/-- A text that does not begin with a reference keeps its first character. -/
theorem takeReference_eq_none {cs : List Char} (h : takeReference cs = none) (name : List Char)
    (c : Char) (refers : Names plusSigned name c) : ¬ '&' :: (name ++ [';']) <+: '&' :: cs := by
  rintro ⟨rest, whole⟩
  have split : cs = name ++ ';' :: rest := by simpa using (List.cons.inj whole).2.symm
  have taken := takeReference_eq_some.mpr ⟨name, refers, split⟩
  rw [h] at taken
  cases taken

theorem decoded_decodeChars (cs : List Char) :
    Decoded (Names plusSigned) cs (decodeChars cs) := by
  induction cs using decodeChars.induct with
  | case1 =>
    rw [decodeChars]
    exact .nil
  | case2 rest c later taken ih =>
    obtain ⟨name, refers, rfl⟩ := takeReference_eq_some.mp taken
    rw [decodeChars_reference (semicolon_not_mem_of_names refers)
      (resolveReference_eq_some.mpr refers)]
    exact .reference refers ih
  | case3 rest none ih =>
    rw [decodeChars_amp none]
    exact .kept (takeReference_eq_none none) ih
  | case4 c rest plain ih =>
    rw [decodeChars_plain plain]
    refine .kept ?_ ih
    rintro name d - ⟨tail, whole⟩
    exact plain (List.cons.inj whole).1.symm

/-- A text says one thing only. -/
theorem Decoded.eq_decodeChars {cs out : List Char} (h : Decoded (Names plusSigned) cs out) :
    out = decodeChars cs := by
  induction h with
  | nil => simp [decodeChars]
  | reference refers later ih =>
    rw [decodeChars_reference (semicolon_not_mem_of_names refers)
      (resolveReference_eq_some.mpr refers), ih]
  | @kept c rest out plain later ih =>
    by_cases amp : c = '&'
    · subst amp
      have none : takeReference rest = none := by
        rw [Option.eq_none_iff_forall_ne_some]
        rintro ⟨d, tail⟩ taken
        obtain ⟨name, refers, rfl⟩ := takeReference_eq_some.mp taken
        exact plain name d refers ⟨tail, by simp⟩
      rw [decodeChars_amp none, ih]
    · rw [decodeChars_plain amp, ih]

theorem decodeChars_eq_iff {cs out : List Char} :
    decodeChars cs = out ↔ Decoded (Names plusSigned) cs out :=
  ⟨fun h => h ▸ decoded_decodeChars cs, fun h => h.eq_decodeChars.symm⟩

theorem Names.signed {name : List Char} {c : Char} (h : Names unsigned name c) :
    Names plusSigned name c := by
  have more : ∀ sign ∈ unsigned, sign ∈ plusSigned := by decide
  cases h with
  | predefined known => exact .predefined known
  | decimal signed number => exact .decimal (more _ signed) number
  | hexadecimal signed number => exact .hexadecimal (more _ signed) number

/-- A plus sign stands in no name but before digits. -/
theorem names_unsigned_iff {name : List Char} {c : Char} :
    Names unsigned name c ↔ Names plusSigned name c ∧ '+' ∉ name := by
  have noDigit : '+' ∉ digitTable.map Prod.fst := by decide
  constructor
  · intro h
    refine ⟨h.signed, ?_⟩
    cases h with
    | predefined known =>
      have none : ∀ p ∈ predefined, '+' ∉ p.1 := by decide
      exact none _ known
    | decimal signed number =>
      cases List.mem_singleton.mp signed
      simpa using fun plus => noDigit (number.mem_digitTable '+' plus)
    | hexadecimal signed number =>
      cases List.mem_singleton.mp signed
      simpa using fun plus => noDigit (number.mem_digitTable '+' plus)
  · rintro ⟨h, plain⟩
    have bare {sign digits : List Char} (signed : sign ∈ plusSigned) (none : '+' ∉ sign ++ digits) :
        sign ∈ unsigned := by
      rcases List.mem_cons.mp signed with rfl | second
      · decide
      · cases List.mem_singleton.mp second
        simp at none
    cases h with
    | predefined known => exact .predefined known
    | decimal signed number => exact .decimal (bare signed (by simpa using plain)) number
    | hexadecimal signed number => exact .hexadecimal (bare signed (by simpa using plain)) number

/-- Decoding replaces exactly the references, each once and from left to right, where a plus sign
may stand before the digits of a number. In a text in which none does, these are the references
of the grammar without signs. -/
theorem decode_iff (s out : String) :
    (decode s = out ↔ Decoded (Names plusSigned) s.toList out.toList) ∧
    ((∀ name c, Names plusSigned name c → '&' :: (name ++ [';']) <:+: s.toList →
        Names unsigned name c) →
      (decode s = out ↔ Decoded (Names unsigned) s.toList out.toList)) := by
  have read : decode s = out ↔ Decoded (Names plusSigned) s.toList out.toList := by
    rw [← decodeChars_eq_iff, decode, ← String.toList_inj, String.toList_ofList]
  refine ⟨read, ?_⟩
  intro plain
  have same (name : List Char) (c : Char) (inside : '&' :: (name ++ [';']) <:+: s.toList) :
      Names plusSigned name c ↔ Names unsigned name c :=
    ⟨fun h => plain name c h inside, Names.signed⟩
  rw [read]
  constructor
  · exact Decoded.congr same
  · exact Decoded.congr fun name c inside => (same name c inside).symm

/-- What a reference stands for is not read again, and an ampersand may stand alone. -/
theorem decode_iff_once :
    (∀ name c, Names plusSigned name c → '&' :: (name ++ [';']) <:+: "&#x26;lt;&".toList →
      Names unsigned name c) ∧
    decode "&#x26;lt;&" = "&lt;&" ∧ Decoded (Names unsigned) "&#x26;lt;&".toList "&lt;&".toList := by
  have plain (name : List Char) (c : Char) (refers : Names plusSigned name c)
      (inside : '&' :: (name ++ [';']) <:+: "&#x26;lt;&".toList) : Names unsigned name c := by
    refine names_unsigned_iff.mpr ⟨refers, fun plus => ?_⟩
    have there : '+' ∈ "&#x26;lt;&".toList := inside.subset (by simp [plus])
    exact absurd there (by decide)
  have read : decode "&#x26;lt;&" = "&lt;&" := by
    have first : decodeChars ('&' :: (['#', 'x', '2', '6'] ++ ';' :: ['l', 't', ';', '&'])) =
        '&' :: decodeChars ['l', 't', ';', '&'] := decodeChars_reference (by decide) (by decide) _
    have last : decodeChars ['&'] = ['&'] := by
      rw [decodeChars_amp rfl, decodeChars]
    have chars : "&#x26;lt;&".toList =
        '&' :: (['#', 'x', '2', '6'] ++ ';' :: ['l', 't', ';', '&']) := rfl
    rw [decode, chars, first]
    simp [decodeChars_plain, last]
  exact ⟨plain, read, ((decode_iff "&#x26;lt;&" "&lt;&").2 plain).mp read⟩

/-- A number with a sign is no reference of the grammar without signs. The text that holds it
says itself, and is not read so. -/
theorem decode_signed :
    decode "&#+65;" = "A" ∧ Decoded (Names unsigned) "&#+65;".toList "&#+65;".toList ∧
      ¬ Decoded (Names unsigned) "&#+65;".toList (decode "&#+65;").toList := by
  have chars : "&#+65;".toList = ['&', '#', '+', '6', '5', ';'] := rfl
  have none (name : List Char) (c : Char) (refers : Names unsigned name c) :
      ¬ '&' :: (name ++ [';']) <:+: "&#+65;".toList := by
    rintro ⟨before, after, whole⟩
    rw [chars] at whole
    cases before with
    | nil =>
      have split : name ++ ';' :: after = ['#', '+', '6', '5', ';'] := by simpa using whole
      rcases name with _ | ⟨first, _ | ⟨second, name⟩⟩
      · simp at split
      · simp at split
      · have plus : second = '+' := by
          simp only [List.cons_append, List.cons.injEq] at split
          exact split.2.1
        exact (names_unsigned_iff.mp refers).2 (by simp [plus])
    | cons d before =>
      have later : '&' ∈ ['#', '+', '6', '5', ';'] := by
        rw [← (List.cons.inj whole).2]
        simp
      exact absurd later (by decide)
  have read : decode "&#+65;" = "A" := by
    have first : decodeChars ('&' :: (['#', '+', '6', '5'] ++ ';' :: [])) = 'A' :: decodeChars [] :=
      decodeChars_reference (by decide) (by decide) _
    rw [decode, chars]
    exact congrArg String.ofList (first.trans (by rw [decodeChars]))
  refine ⟨read, (decoded_iff_eq none).mpr rfl, ?_⟩
  rw [read, decoded_iff_eq none]
  decide

end QueryMarkup.Text
