import Vstr.Parse.Digits
import Vstr.Parse.Overflow

/-!
# Digits and prefixes

A number in a given base may begin with `0x` or `0b`. The parser looks for both letters in
the bases 16 and 2, although the letter `b` is a digit of base 16.
-/

namespace Vstr

open Splice Query

variable {E : Env} {P : Own} {s : St} {pos len w b k : Nat} {xs : List (Option UInt8)}
  {fl : ParseNumFlags} {ds es : List UInt8}

/-- The letter names the base; a number without a given base takes the base of its prefix. -/
def Names (b : Nat) (c : UInt8) : Prop :=
  (b = 16 ∧ c ∈ ([0x78, 0x58] : List UInt8)) ∨ (b = 2 ∧ c ∈ ([0x62, 0x42] : List UInt8)) ∨ b = 0

/-- The letter of a prefix is among the bytes before those that the parser goes on with. -/
def NumBeg.Skips (c : UInt8) (xs : List (Option UInt8)) : NumBeg → Prop
  | .bad err => err = .onlySpmx ∧ xs.getLast? = some (some c)
  | .zero len _ => c ∈ prefixLetters ∧ some c ∈ xs.take (xs.length - len)
  | .digits _ _ len _ _ => c ∈ prefixLetters ∧ some c ∈ xs.take (xs.length - len)

/-- What stands behind the spaces and the sign. -/
def behindSign (fl : ParseNumFlags) (xs : List (Option UInt8)) : Option (List (Option UInt8)) :=
  let ys := if fl.space then xs.drop (spanOf [0x20] xs) else xs
  if fl.noBegPm then some ys else (signOf ys).map fun p => ys.drop p.1

/-- A text of digits is read whole, and a letter is skipped only if it names the base. -/
structure PrefixExact (T : NumType) (fl : ParseNumFlags) (pos : Nat) (xs : List (Option UInt8))
    (r : ParsedInt) : Prop where
  /-- All digits count. -/
  digits : 2 ≤ fl.base → fl.noBegZero = false → ∀ ds : List UInt8, xs = ds.map some →
    AllDigits false fl.base ds →
      r.len = ds.length ∧ r.num % 2 ^ T.width = (digitsVal false fl.base ds : Int) % 2 ^ T.width
  /-- The letter of a prefix names the base. -/
  skips : ∀ c, (numBegOf fl pos xs).Skips c xs → Names fl.base c

/-- The texts with a letter that is wrongly taken for a prefix. -/
inductive LetterSlips (fl : ParseNumFlags) (xs : List (Option UInt8)) : Prop where
  /-- One letter `b` behind a single zero, in base 16. -/
  | sixteen (c : UInt8) (zs : List (Option UInt8)) (hb : fl.base = 16)
    (h : behindSign fl xs = some (some 0x30 :: some c :: zs))
    (hc : c ∈ ([0x62, 0x42] : List UInt8)) (hz : NotAmong [0x62, 0x42] zs)
  /-- One letter `x` behind a single zero, in base 2. -/
  | two (c : UInt8) (zs : List (Option UInt8)) (hb : fl.base = 2)
    (h : behindSign fl xs = some (some 0x30 :: some c :: zs))
    (hc : c ∈ ([0x78, 0x58] : List UInt8)) (hz : NotAmong [0x78, 0x58] zs)
  /-- Two letters `b` behind a single zero, in base 16, and only digits. -/
  | twice (c d : UInt8) (es : List UInt8) (hb : fl.base = 16) (hz : fl.noBegZero = false)
    (h : xs = (0x30 :: c :: d :: es).map some) (hc : c ∈ ([0x62, 0x42] : List UInt8))
    (hd : d ∈ ([0x62, 0x42] : List UInt8)) (hall : AllDigits false 16 es)

/-- An overflow of a signed type that is reported: the largest number is returned. -/
def Saturates (T : NumType) (fl : ParseNumFlags) (xs : List (Option UInt8)) : Prop :=
  T.signed = true ∧ fl.overflow = true ∧ 2 ≤ fl.base ∧ fl.noBegZero = false ∧
    ∃ ds : List UInt8, xs = ds.map some ∧ AllDigits false fl.base ds ∧
      2 ^ (T.width - 1) - 1 < digitsVal false fl.base ds % 2 ^ T.width

/-! ## What is skipped -/

/-- No letter of a prefix is among the bytes. -/
def NoLetter (xs : List (Option UInt8)) : Prop := ∀ c ∈ prefixLetters, some c ∉ xs

theorem noLetter_map {as chrs : List UInt8} (ha : ∀ a ∈ as, a ∈ chrs)
    (hc : ∀ c ∈ prefixLetters, c ∉ chrs) : NoLetter (as.map some) := by
  intro c hin hmem
  obtain ⟨a, hin', e⟩ := List.mem_map.mp hmem
  obtain rfl := Option.some.inj e
  exact hc a hin (ha a hin')

theorem NoLetter.append {ys : List (Option UInt8)} (h : NoLetter xs) (h' : NoLetter ys) :
    NoLetter (xs ++ ys) := by
  intro c hin hmem
  rcases List.mem_append.mp hmem with hmem | hmem
  · exact h c hin hmem
  · exact h' c hin hmem

/-- Zeros are no letters. -/
theorem NoLetter.take_zeros {p : List (Option UInt8)} (h : NoLetter p) {n : Nat}
    (hn : n ≤ p.length + spanOf [0x30] xs) : NoLetter ((p ++ xs).take n) := by
  obtain ⟨as, ys, rfl, hlen, has, -⟩ := spanOf_split [0x30] xs
  intro c hin hmem
  rw [← List.append_assoc, List.take_append_of_le_length (by simp; omega)] at hmem
  exact h.append (noLetter_map has (by simp [prefixLetters])) c hin (List.mem_of_mem_take hmem)

/-- What the parser goes on with behind zeros. -/
theorem parseNumZeros_rest (fl : ParseNumFlags) (nb pos : Nat) {l tmp : Nat} (hle : tmp ≤ l)
    (isNeg z : Bool) : ∃ l' ≤ l, l - tmp ≤ l' ∧ ∀ (c : UInt8) (ys : List (Option UInt8)),
      (parseNumZeros fl nb pos l tmp isNeg z).Skips c ys ↔
        c ∈ prefixLetters ∧ some c ∈ ys.take (ys.length - l') := by
  unfold parseNumZeros
  by_cases h1 : tmp ≠ 0 ∧ fl.noBegZero = true
  · rw [if_pos h1]
    exact ⟨l - 1, by omega, by omega, fun c ys => Iff.rfl⟩
  · rw [if_neg h1]
    by_cases h2 : tmp = l
    · rw [if_pos h2]
      exact ⟨0, by omega, by omega, fun c ys => Iff.rfl⟩
    · rw [if_neg h2]
      exact ⟨l - tmp, by omega, by omega, fun c ys => Iff.rfl⟩

/-- Zeros are skipped without a letter. -/
theorem not_skips_zeros {p : List (Option UInt8)} (hp : NoLetter p) (fl : ParseNumFlags)
    (nb pos : Nat) {tmp : Nat} (htmp : tmp ≤ spanOf [0x30] xs) (isNeg z : Bool) (c : UInt8) :
    ¬ (parseNumZeros fl nb pos xs.length tmp isNeg z).Skips c (p ++ xs) := by
  have hspan := spanOf_le [0x30] xs
  obtain ⟨l', h1, h2, h3⟩ := parseNumZeros_rest fl nb pos (show tmp ≤ xs.length by omega) isNeg z
  rw [h3]
  rintro ⟨hin, hmem⟩
  refine hp.take_zeros ?_ c hin hmem
  rw [List.length_append]
  omega

/-- The letter of a prefix is skipped. -/
theorem letterOf_skips {p : List (Option UInt8)} (hp : NoLetter p) (fl : ParseNumFlags)
    (base nb pos : Nat) {c : UInt8} (hc : c ∈ prefixLetters) (isNeg : Bool) (c' : UInt8) :
    (letterOf fl base nb pos (some c :: xs) isNeg).Skips c' (p ++ some c :: xs) ↔ c' = c := by
  have hspan := spanOf_le [0x30] xs
  unfold letterOf
  rw [List.length_cons, Nat.add_sub_cancel, List.drop_one, List.tail_cons]
  by_cases h0 : xs.length = 0
  · obtain rfl := List.length_eq_zero_iff.mp h0
    rw [if_pos h0]
    simp only [NumBeg.Skips, List.getLast?_append, List.getLast?_singleton, Option.some_or,
      Option.some.injEq, true_and]
    exact eq_comm
  · rw [if_neg h0]
    obtain ⟨l', h1, h2, h3⟩ := parseNumZeros_rest fl (if fl.base = 0 then base else nb) (pos + 1)
      hspan isNeg true
    have hn : (p ++ some c :: xs).length - l' = p.length + 1 + (xs.length - l') := by
      rw [List.length_append, List.length_cons]
      omega
    have htake : (p ++ some c :: xs).take (p.length + 1 + (xs.length - l')) =
        p ++ some c :: xs.take (xs.length - l') := by
      rw [Nat.add_assoc, List.take_append, List.take_of_length_le (by omega),
        Nat.add_sub_cancel_left, Nat.add_comm 1, List.take_succ_cons]
    have hz : NoLetter (xs.take (xs.length - l')) := by
      have hnil : NoLetter ([] : List (Option UInt8)) := fun c hin hmem => by cases hmem
      refine hnil.take_zeros ?_
      rw [List.length_nil]
      omega
    rw [h3, hn, htake]
    refine ⟨?_, ?_⟩
    · rintro ⟨hin, hmem⟩
      rcases List.mem_append.mp hmem with hmem | hmem
      · exact absurd hmem (hp c' hin)
      rcases List.mem_cons.mp hmem with hmem | hmem
      · exact Option.some.inj hmem
      · exact absurd hmem (hz c' hin)
    · rintro rfl
      exact ⟨hc, by simp⟩

/-- The letter of a prefix stands behind a single zero, and is not doubled. -/
def PrefixAt (fl : ParseNumFlags) (c : UInt8) (ys : List (Option UInt8)) : Prop :=
  (fl.numBase = 0 ∨ fl.numBase = 16 ∨ fl.numBase = 2) ∧
    ∃ zs, ys = some 0x30 :: some c :: zs ∧
      (c ∈ ([0x78, 0x58] : List UInt8) ∧ NotAmong [0x78, 0x58] zs ∨
        c ∈ ([0x62, 0x42] : List UInt8) ∧ NotAmong [0x62, 0x42] zs)

/-- A single byte of a span. -/
theorem spanOf_one {chrs : List UInt8} : spanOf chrs xs = 1 ↔
    ∃ c zs, xs = some c :: zs ∧ c ∈ chrs ∧ NotAmong chrs zs := by
  refine ⟨fun h => ?_, ?_⟩
  · obtain ⟨as, ys, rfl, hlen, has, hys⟩ := spanOf_split chrs xs
    rw [h] at hlen
    obtain ⟨a, rfl⟩ := List.length_eq_one_iff.mp hlen
    exact ⟨a, ys, rfl, has a List.mem_cons_self, hys⟩
  · rintro ⟨c, zs, rfl, hc, hzs⟩
    have hone : ∀ a ∈ [c], a ∈ chrs := by simpa using hc
    exact spanOf_eq hone hzs

/-- The first byte of a span. -/
theorem spanOf_pos {chrs : List UInt8} {c : UInt8} (hc : c ∈ chrs) (zs : List (Option UInt8)) :
    0 < spanOf chrs (some c :: zs) := by
  unfold spanOf
  rw [List.takeWhile_cons, if_pos (by simpa using hc)]
  exact Nat.succ_pos _

/-- The letter that is skipped behind a zero. -/
theorem prefixOf_skips {p : List (Option UInt8)} (hp : NoLetter p) (fl : ParseNumFlags)
    (nb pos : Nat) (xs : List (Option UInt8)) (isNeg : Bool) (c : UInt8) :
    (prefixOf fl nb pos xs isNeg).Skips c (p ++ xs) ↔
      ∃ zs, xs = some c :: zs ∧ (c ∈ ([0x78, 0x58] : List UInt8) ∧ NotAmong [0x78, 0x58] zs ∨
        c ∈ ([0x62, 0x42] : List UInt8) ∧ NotAmong [0x62, 0x42] zs) := by
  have hx : ∀ c ∈ ([0x78, 0x58] : List UInt8), c ∈ prefixLetters := by simp [prefixLetters]
  have hb : ∀ c ∈ ([0x62, 0x42] : List UInt8), c ∈ prefixLetters := by simp [prefixLetters]
  have hdis : ∀ c ∈ ([0x78, 0x58] : List UInt8), c ∉ ([0x62, 0x42] : List UInt8) := by simp
  have none : ∀ err, ¬ NumBeg.Skips c (p ++ xs) (.zero xs.length err) := by
    rintro err ⟨hin, hmem⟩
    rw [List.length_append, Nat.add_sub_cancel, List.take_left' rfl] at hmem
    exact hp c hin hmem
  unfold prefixOf
  by_cases h0 : xs.length = 0
  · obtain rfl := List.length_eq_zero_iff.mp h0
    rw [if_pos h0]
    refine ⟨fun h => absurd h (none _), ?_⟩
    rintro ⟨zs, h, -⟩
    cases h
  rw [if_neg h0]
  by_cases h1 : spanOf [0x78, 0x58] xs > 1
  · rw [if_pos h1]
    refine ⟨fun h => absurd h (none _), ?_⟩
    rintro ⟨zs, rfl, ⟨hc, hz⟩ | ⟨hc, hz⟩⟩
    · have := spanOf_one.mpr ⟨c, zs, rfl, hc, hz⟩
      omega
    · have hn : NotAmong [0x78, 0x58] (some c :: zs) := by
        intro c' hc' hin
        obtain rfl := Option.some.inj (Option.some.inj hc')
        exact hdis _ hin hc
      have := spanOf_zero hn
      omega
  rw [if_neg h1]
  by_cases h2 : spanOf [0x78, 0x58] xs = 1
  · obtain ⟨d, zs, rfl, hd, hz⟩ := spanOf_one.mp h2
    rw [if_pos h2, letterOf_skips hp fl 16 nb pos (hx d hd)]
    refine ⟨?_, ?_⟩
    · rintro rfl
      exact ⟨zs, rfl, .inl ⟨hd, hz⟩⟩
    · rintro ⟨zs', e, -⟩
      exact (Option.some.inj (List.cons.inj e).1).symm
  rw [if_neg h2]
  have hnx : ∀ zs, xs = some c :: zs → c ∉ ([0x78, 0x58] : List UInt8) := by
    rintro zs rfl hc
    have := spanOf_pos hc zs
    omega
  by_cases h3 : spanOf [0x62, 0x42] xs > 1
  · rw [if_pos h3]
    refine ⟨fun h => absurd h (none _), ?_⟩
    rintro ⟨zs, e, ⟨hc, hz⟩ | ⟨hc, hz⟩⟩
    · exact absurd hc (hnx zs e)
    · have := spanOf_one.mpr ⟨c, zs, e, hc, hz⟩
      omega
  rw [if_neg h3]
  by_cases h4 : spanOf [0x62, 0x42] xs = 1
  · obtain ⟨d, zs, rfl, hd, hz⟩ := spanOf_one.mp h4
    rw [if_pos h4, letterOf_skips hp fl 2 nb pos (hb d hd)]
    refine ⟨?_, ?_⟩
    · rintro rfl
      exact ⟨zs, rfl, .inr ⟨hd, hz⟩⟩
    · rintro ⟨zs', e, -⟩
      exact (Option.some.inj (List.cons.inj e).1).symm
  rw [if_neg h4]
  refine ⟨fun h => absurd h (not_skips_zeros hp fl _ pos (Nat.zero_le _) isNeg true c), ?_⟩
  rintro ⟨zs, e, ⟨hc, hz⟩ | ⟨hc, hz⟩⟩
  · exact absurd hc (hnx zs e)
  · exact absurd (spanOf_one.mpr ⟨c, zs, e, hc, hz⟩) h4

/-- The letter that is skipped behind a sign. -/
theorem digitsOf_skips {p : List (Option UInt8)} (hp : NoLetter p) (fl : ParseNumFlags)
    (pos : Nat) (xs : List (Option UInt8)) (isNeg : Bool) (c : UInt8) :
    (digitsOf fl pos xs isNeg).Skips c (p ++ xs) ↔ PrefixAt fl c xs := by
  have hz : ∀ c ∈ prefixLetters, some c ∉ [some (0x30 : UInt8)] := by simp [prefixLetters]
  have hdis : ∀ c zs, NotAmong [0x78, 0x58] zs ∧ c ∈ ([0x78, 0x58] : List UInt8) ∨
      NotAmong [0x62, 0x42] zs ∧ c ∈ ([0x62, 0x42] : List UInt8) →
      NotAmong [0x30] (some c :: zs) := by
    intro c zs h c' hc' hin
    obtain rfl := Option.some.inj (Option.some.inj hc')
    obtain rfl := List.mem_singleton.mp hin
    rcases h with ⟨-, h⟩ | ⟨-, h⟩ <;> exact absurd h (by decide)
  have hone : ∀ c, PrefixAt fl c xs → spanOf [0x30] xs = 1 ∧
      (fl.numBase = 0 ∨ fl.numBase = 16 ∨ fl.numBase = 2) := by
    rintro c ⟨hb, zs, rfl, h⟩
    refine ⟨spanOf_one.mpr ⟨0x30, _, rfl, by decide, hdis c zs ?_⟩, hb⟩
    exact h.imp And.symm And.symm
  unfold digitsOf
  by_cases h0 : xs.length = 0
  · obtain rfl := List.length_eq_zero_iff.mp h0
    rw [if_pos h0]
    refine ⟨fun h => absurd h.1 (by decide), ?_⟩
    rintro ⟨-, zs, h, -⟩
    cases h
  rw [if_neg h0]
  by_cases h1 : spanOf [0x30] xs = 1 ∧ (fl.numBase = 0 ∨ fl.numBase = 16 ∨ fl.numBase = 2)
  · obtain ⟨d, zs, rfl, hd, -⟩ := spanOf_one.mp h1.1
    obtain rfl := List.mem_singleton.mp hd
    have hsk := prefixOf_skips (hp.append hz) fl fl.numBase (pos + 1) zs isNeg c
    rw [List.append_assoc, List.singleton_append] at hsk
    rw [if_pos h1, List.drop_one, List.tail_cons, hsk]
    refine ⟨?_, ?_⟩
    · rintro ⟨ws, rfl, h⟩
      exact ⟨h1.2, ws, rfl, h⟩
    · rintro ⟨-, ws, e, h⟩
      exact ⟨ws, (List.cons.inj e).2, h⟩
  rw [if_neg h1]
  have hnot : ¬ PrefixAt fl c xs := fun h => h1 (hone c h)
  split
  · exact ⟨fun h => absurd h (not_skips_zeros hp fl _ pos (Nat.sub_le _ _) isNeg true c),
      fun h => absurd h hnot⟩
  · exact ⟨fun h => absurd h (not_skips_zeros hp fl _ pos (Nat.le_refl _) isNeg _ c),
      fun h => absurd h hnot⟩

/-- The sign is no letter. -/
theorem signOf_drop {tmp : Nat} {isNeg : Bool} (h : signOf xs = some (tmp, isNeg)) :
    NoLetter (xs.take tmp) := by
  have span : ∀ d : UInt8, (∀ c ∈ prefixLetters, c ∉ [d]) →
      NoLetter (xs.take (spanOf [d] xs)) := by
    intro d hd
    obtain ⟨as, ys, rfl, hlen, has, -⟩ := spanOf_split [d] xs
    rw [← hlen, List.take_left' (by simp)]
    exact noLetter_map has hd
  unfold signOf at h
  split at h
  · cases h
  · split at h
    · split at h
      · cases h
      · obtain ⟨rfl, -⟩ := Prod.mk.inj (Option.some.inj h)
        exact span _ (by simp [prefixLetters])
    · obtain ⟨rfl, -⟩ := Prod.mk.inj (Option.some.inj h)
      exact span _ (by simp [prefixLetters])

/-- Which letter is skipped. -/
theorem numBegOf_skips (fl : ParseNumFlags) (pos : Nat) (xs : List (Option UInt8)) (c : UInt8) :
    (numBegOf fl pos xs).Skips c xs ↔ ∃ ys, behindSign fl xs = some ys ∧ PrefixAt fl c ys := by
  have signed : ∀ (pos : Nat) (p ys : List (Option UInt8)), NoLetter p →
      ((signedOf fl pos ys).Skips c (p ++ ys) ↔
        ∃ zs, (if fl.noBegPm then some ys else (signOf ys).map fun q => ys.drop q.1) = some zs ∧
          PrefixAt fl c zs) := by
    intro pos p ys hp
    unfold signedOf
    by_cases hpm : fl.noBegPm = true
    · rw [if_pos hpm, if_pos hpm, digitsOf_skips hp]
      simp
    · rw [if_neg hpm, if_neg hpm]
      cases hs : signOf ys with
      | none => exact ⟨fun h => absurd h.1 (by decide), fun ⟨zs, h, _⟩ => by cases h⟩
      | some q =>
        have hsk := digitsOf_skips (hp.append (signOf_drop hs)) fl (pos + q.1)
          (ys.drop q.1) q.2 c
        rw [List.append_assoc, List.take_append_drop] at hsk
        simpa using hsk
  unfold numBegOf behindSign
  by_cases hsp : fl.space = true
  · rw [if_pos hsp, if_pos hsp]
    obtain ⟨as, ys, e, hlen, has, -⟩ := spanOf_split [0x20] xs
    have hdrop : xs.drop (spanOf [0x20] xs) = ys := by
      rw [← hlen, e]
      exact List.drop_left' (by simp)
    rw [hdrop]
    by_cases hall : spanOf [0x20] xs ≥ xs.length
    · have hnil : ys = [] := by
        rw [e, List.length_append, List.length_map, ← e, ← hlen] at hall
        exact List.length_eq_zero_iff.mp (by omega)
      rw [if_pos hall, hnil]
      refine ⟨fun h => absurd h.1 (by decide), ?_⟩
      rintro ⟨zs, h, -, ws, rfl, -⟩
      dsimp only at h
      split at h
      · cases h
      · cases h
    · rw [if_neg hall]
      have h := signed (pos + spanOf [0x20] xs) (as.map some) ys
        (noLetter_map has (by simp [prefixLetters]))
      rwa [← e] at h
  · rw [if_neg hsp, if_neg hsp]
    exact signed pos [] xs fun c hin hmem => by cases hmem

/-! ## Digits -/

/-- Digits are letters or figures. -/
theorem asciiDigit_ge {loc : Bool} {c : UInt8} {d : Nat} (h : asciiDigit loc b c = some d) :
    0x30 ≤ c.toNat := by
  by_contra hlt
  rw [asciiDigit_of_lt loc b (by omega)] at h
  cases h

theorem AllDigits.loc (h : AllDigits false b ds) (hb : b ≤ 36) (loc : Bool) :
    AllDigits loc b ds ∧ digitsVal loc b ds = digitsVal false b ds := by
  have hone : ∀ c ∈ ds, asciiDigit loc b c = asciiDigit false b c :=
    fun c _ => asciiDigit_eq hb loc c
  refine ⟨fun c hc => ?_, ?_⟩
  · rw [hone c hc]
    exact h c hc
  · unfold digitsVal
    congr 1
    exact List.map_congr_left fun c hc => by rw [hone c hc]

/-- A text of digits begins with no other character. -/
theorem AllDigits.notAmong {loc : Bool} (h : AllDigits loc b ds) {chrs : List UInt8}
    (hc : ∀ c ∈ chrs, c.toNat < 0x30) : NotAmong chrs (ds.map some) := by
  intro c hhead hin
  cases ds with
  | nil => cases hhead
  | cons e es =>
    obtain rfl : e = c := by simpa using hhead
    obtain ⟨d, hd⟩ := Option.isSome_iff_exists.mp (h e List.mem_cons_self)
    have h1 := asciiDigit_ge hd
    have h2 := hc e hin
    omega

/-- Digits behind a sign, or without one. -/
theorem numBegOf_signed {sgn : List UInt8} (hds : AllDigits fl.loc b ds) (hne : ds ≠ [])
    (hsgn : sgn = [] ∨ fl.noBegPm = false ∧ (sgn = [0x2B] ∨ sgn = [0x2D])) (pos : Nat) :
    numBegOf fl pos (sgn.map some ++ ds.map some) =
      digitsOf fl (pos + sgn.length) (ds.map some) (decide (sgn = [0x2D])) := by
  have hspace : 0 = spanOf [0x20] (sgn.map some ++ ds.map some) := by
    rcases hsgn with rfl | ⟨-, rfl | rfl⟩
    · exact spanOf_zero (hds.notAmong (by simp))
    · rfl
    · rfl
  have hsign : signOf (sgn.map some ++ ds.map some) =
      some (sgn.length, decide (sgn = [0x2D])) := by
    refine signOf_eq ?_ (hds.notAmong (by simp))
    rcases hsgn with h | ⟨-, h⟩
    · exact .inl h
    · exact .inr h
  have hlen : (sgn.map some ++ ds.map some : List (Option UInt8)).length ≠ 0 := by
    simp [hne]
  have hsigned : signedOf fl pos (sgn.map some ++ ds.map some) =
      digitsOf fl (pos + sgn.length) (ds.map some) (decide (sgn = [0x2D])) := by
    unfold signedOf
    by_cases hpm : fl.noBegPm = true
    · rcases hsgn with rfl | ⟨h, -⟩
      · rw [if_pos hpm]
        rfl
      · rw [hpm] at h
        cases h
    · rw [if_neg hpm, hsign]
      dsimp only
      rw [List.drop_left' (by simp)]
  unfold numBegOf
  rw [← hspace]
  split
  · rw [if_neg (by omega)]
    exact hsigned
  · exact hsigned

/-- A zero is a digit. -/
theorem asciiDigit_zero (loc : Bool) (hb : 1 ≤ b) : asciiDigit loc b 0x30 = some 0 := by
  have h30 : (0x30 : UInt8).toNat = 0x30 := rfl
  unfold asciiDigit localDigit
  dsimp only
  rw [h30]
  split
  · rw [if_pos ⟨Nat.le_refl _, by split <;> omega⟩]
  · rw [if_neg (by omega), if_pos (by split <;> omega)]

/-- Zeros at the beginning do not count. -/
theorem digitsVal_zeros (loc : Bool) (hb : 1 ≤ b) (k : Nat) (es : List UInt8) :
    digitsVal loc b (List.replicate k 0x30 ++ es) = digitsVal loc b es := by
  unfold digitsVal
  rw [List.map_append, List.map_replicate, asciiDigit_zero loc hb]
  exact Numeral.value_zeros b k _

/-- The loop reads a text of digits. -/
theorem digitsRead_all (hb : b ≤ 36) (hds : AllDigits fl.loc b ds) (z : Bool) :
    digitsRead fl b (ds.map some) z = ds.map fun c => (asciiDigit fl.loc b c).getD 0 := by
  induction ds generalizing z with
  | nil => rfl
  | cons c ds ih =>
    obtain ⟨d, hd⟩ := Option.isSome_iff_exists.mp (hds c List.mem_cons_self)
    have hc : ¬ (z = true ∧ (some c).getD 0 = 0x5F) := by
      rintro ⟨-, h⟩
      obtain rfl : c = 0x5F := h
      rw [asciiDigit_underscore _ hb] at hd
      cases hd
    rw [List.map_cons, digitsRead, if_neg hc, Option.getD_some, hd, List.map_cons, hd,
      ih fun c' hc' => hds c' (List.mem_cons_of_mem _ hc')]
    rfl

/-- The loop goes to the end of a text of digits. -/
theorem numLoopOf_len (hb : b ≤ 36) (hds : AllDigits fl.loc b ds) (w : Nat) (z : Bool)
    (r : NumLoop) : (numLoopOf fl w b (ds.map some) z r).len = r.len - ds.length := by
  induction ds generalizing z r with
  | nil => rfl
  | cons c ds ih =>
    obtain ⟨d, hd⟩ := Option.isSome_iff_exists.mp (hds c List.mem_cons_self)
    have hc : ¬ (z = true ∧ (some c).getD 0 = 0x5F) := by
      rintro ⟨-, h⟩
      obtain rfl : c = 0x5F := h
      rw [asciiDigit_underscore _ hb] at hd
      cases hd
    rw [List.map_cons, numLoopOf, if_neg hc, Option.getD_some, hd]
    dsimp only
    rw [ih fun c' hc' => hds c' (List.mem_cons_of_mem _ hc'), List.length_cons]
    change r.len - 1 - ds.length = r.len - (ds.length + 1)
    omega

/-- A text of digits begins like one with a prefix. -/
def LooksPrefixed (b : Nat) (ds : List UInt8) : Prop :=
  (b = 16 ∨ b = 2) ∧ ∃ c es, ds = 0x30 :: c :: es ∧ c ∈ prefixLetters

/-- The beginning of a text of digits. -/
theorem numBegOf_digits {sgn : List UInt8} (h : Based fl b) (hz : fl.noBegZero = false)
    (hds : AllDigits fl.loc b ds) (hne : ds ≠ []) (hp : ¬ LooksPrefixed b ds)
    (hsgn : sgn = [] ∨ fl.noBegPm = false ∧ (sgn = [0x2B] ∨ sgn = [0x2D])) (pos : Nat) :
    ∃ k es, ds = List.replicate k 0x30 ++ es ∧ AllDigits fl.loc b es ∧
      numBegOf fl pos (sgn.map some ++ ds.map some) =
        if es = [] then .zero 0 .none
        else .digits b (pos + sgn.length + k) es.length (decide (sgn = [0x2D])) (k ≠ 0) := by
  obtain ⟨k, es, hes, hhead⟩ := exists_zeros ds
  have hzero : NotAmong [0x30] (es.map some) := by
    intro c hc hin
    obtain rfl := List.mem_singleton.mp hin
    cases es with
    | nil => cases hc
    | cons e es => exact hhead (by simpa using hc)
  have hdig : AllDigits fl.loc b es := fun c hc => hds c (by rw [hes]; simp [hc])
  refine ⟨k, es, hes, hdig, ?_⟩
  have hlet : k = 1 → b = 16 ∨ b = 2 → NotAmong prefixLetters (es.map some) := by
    rintro rfl hb c hc hin
    cases es with
    | nil => cases hc
    | cons e es =>
      obtain rfl : e = c := by simpa using hc
      exact hp ⟨hb, e, es, hes, hin⟩
  have hne' : k ≠ 0 ∨ es.map some ≠ [] := by
    by_cases hk : k = 0
    · subst hk
      exact .inr (by simpa [hes] using hne)
    · exact .inl hk
  rw [numBegOf_signed hds hne hsgn, hes, List.map_append,
    digitsOf_zeros h (.inr hz) hzero hlet hne', List.length_map]
  by_cases he : es = []
  · rw [if_pos he, if_pos (by rw [he]; rfl)]
  · rw [if_neg he, if_neg (by simpa using he)]

/-- What the loop leaves of a text of digits. -/
structure AllRead (fl : ParseNumFlags) (w v : Nat) (r : NumLoop) : Prop where
  /-- The value. -/
  ret : r.ret = v % 2 ^ w
  /-- Nothing is left. -/
  len : r.len = 0
  /-- A number that fits is no error. -/
  err : v < 2 ^ w → r.err = .none

/-- A number that fits is not noticed. -/
theorem not_noticedIn {ds : List Nat} (hw : w = 16 ∨ w = 32 ∨ w = 64) (hb : 2 ≤ b) (hb' : b ≤ 36)
    (hds : ∀ d ∈ ds, d < 36) (hv : Numeral.value b ds < 2 ^ w) : ¬ NoticedIn w b ds := by
  intro h
  rcases hw with rfl | hw
  · have := (noticedIn_short (by omega) hb' hds).mp h
    omega
  · have := h.le_value (by omega) (by omega) hds
    omega

theorem numLoopOf_all (h2 : 2 ≤ b) (h36 : b ≤ 36) (hds : AllDigits fl.loc b ds)
    (hw : w = 16 ∨ w = 32 ∨ w = 64) (z : Bool) :
    AllRead fl w (digitsVal fl.loc b ds)
      (numLoopOf fl w b (ds.map some) z ⟨0, ds.length, .none⟩) := by
  have hr := numLoopOf_hasRead (hasRead_nil fl w b ds.length) (ds.map some) z
  have hlt := digitsRead_lt fl h36 (ds.map some) z
  rw [List.nil_append] at hr
  rw [digitsRead_all h36 hds] at hr hlt
  refine ⟨hr.ret, ?_, fun hv => ?_⟩
  · rw [numLoopOf_len h36 hds]
    exact Nat.sub_self _
  · refine hr.other.resolve_left fun ho => ?_
    exact not_noticedIn hw h2 h36 hlt hv (hr.overflow.mp ho).2

/-- The rest of a text. -/
theorem drop_digits (sgn : List UInt8) (k : Nat)
    (hes : ds = List.replicate k 0x30 ++ es) :
    (sgn.map some ++ ds.map some : List (Option UInt8)).drop
      ((sgn.map some ++ ds.map some : List (Option UInt8)).length - es.length) = es.map some := by
  have e : (sgn.map some ++ ds.map some : List (Option UInt8)) =
      (sgn ++ List.replicate k 0x30).map some ++ es.map some := by
    rw [hes]
    simp
  rw [e]
  refine List.drop_left' ?_
  rw [List.length_append, List.length_map, List.length_map, Nat.add_sub_cancel]

/-- The parsers of unsigned numbers on a text of digits. -/
theorem ufuncOf_all (h : Based fl b) (hz : fl.noBegZero = false) (hds : AllDigits fl.loc b ds)
    (hp : ¬ LooksPrefixed b ds) (hw : w = 16 ∨ w = 32 ∨ w = 64) (hne : ds ≠ []) (pos : Nat) :
    (ufuncOf w fl pos (ds.map some)).num = digitsVal fl.loc b ds % 2 ^ w ∧
      (ufuncOf w fl pos (ds.map some)).len = ds.length ∧
      (digitsVal fl.loc b ds < 2 ^ w → (ufuncOf w fl pos (ds.map some)).err = .none) := by
  obtain ⟨k, es, hes, hdig, hbeg⟩ := numBegOf_digits h hz hds hne hp (.inl rfl) pos
  have hb1 : 1 ≤ b := by
    have := h.two_le
    omega
  have hval : digitsVal fl.loc b ds = digitsVal fl.loc b es := by
    rw [hes, digitsVal_zeros _ hb1]
  have hdrop := drop_digits [] k hes
  rw [List.map_nil, List.nil_append] at hbeg hdrop
  unfold ufuncOf
  rw [hbeg, hval]
  by_cases he : es = []
  · rw [if_pos he, he]
    simp [digitsVal]
  · have hr := numLoopOf_all h.two_le h.le hdig hw (decide (k ≠ 0))
    rw [if_neg he]
    dsimp only
    rw [if_neg (by decide), hdrop, hr.len, hr.ret, if_neg (by simp)]
    exact ⟨rfl, by simp, hr.err⟩

/-- The parsers of signed numbers on a text of digits. -/
theorem sfuncOf_all (sgn : List UInt8) (h : Based fl b) (hz : fl.noBegZero = false)
    (hds : AllDigits fl.loc b ds) (hp : ¬ LooksPrefixed b ds) (hw : w = 16 ∨ w = 32 ∨ w = 64)
    (hne : ds ≠ []) (hsgn : sgn = [] ∨ fl.noBegPm = false ∧ (sgn = [0x2B] ∨ sgn = [0x2D]))
    (hneg : ¬ (sgn = [0x2D] ∧ fl.noNegative = true)) (h0 : sgn = [0x2D] → digitsVal fl.loc b ds ≠ 0)
    (pos : Nat) :
    (sfuncOf w fl pos (sgn.map some ++ ds.map some)).num = signedNum w (decide (sgn = [0x2D]))
        (if fl.overflow = true ∧
            parseNumOver w (decide (sgn = [0x2D])) (digitsVal fl.loc b ds % 2 ^ w) = true then
          2 ^ (w - 1) - 1 + (decide (sgn = [0x2D])).toNat
        else digitsVal fl.loc b ds % 2 ^ w) ∧
      (sfuncOf w fl pos (sgn.map some ++ ds.map some)).len = sgn.length + ds.length ∧
      (digitsVal fl.loc b ds < 2 ^ w →
        parseNumOver w (decide (sgn = [0x2D])) (digitsVal fl.loc b ds) = false →
        (sfuncOf w fl pos (sgn.map some ++ ds.map some)).err = .none) := by
  obtain ⟨k, es, hes, hdig, hbeg⟩ := numBegOf_digits h hz hds hne hp hsgn pos
  have hb1 : 1 ≤ b := by
    have := h.two_le
    omega
  have hval : digitsVal fl.loc b ds = digitsVal fl.loc b es := by
    rw [hes, digitsVal_zeros _ hb1]
  have hdrop := drop_digits sgn k hes
  unfold sfuncOf
  rw [hbeg]
  by_cases he : es = []
  · have hv0 : digitsVal fl.loc b ds = 0 := by
      rw [hval, he]
      rfl
    have hplus : decide (sgn = [0x2D]) = false := by
      simpa using fun hc => h0 hc hv0
    have hover : ¬ (fl.overflow = true ∧ parseNumOver w false (0 % 2 ^ w) = true) := by
      rintro ⟨-, ho⟩
      rcases hw with rfl | rfl | rfl <;> exact absurd ho (by decide)
    rw [if_pos he, hv0, hplus, if_neg hover]
    simp [signedNum]
  · have hr := numLoopOf_all h.two_le h.le hdig hw (decide (k ≠ 0))
    rw [if_neg he]
    dsimp only
    rw [if_neg (by simpa using hneg), hdrop, hval]
    unfold parseNumEndS
    dsimp only
    rw [hr.ret]
    by_cases hov : fl.overflow = true ∧
        parseNumOver w (decide (sgn = [0x2D])) (digitsVal fl.loc b es % 2 ^ w) = true
    · rw [if_pos hov, if_pos hov]
      refine ⟨rfl, ?_, fun hv hno => ?_⟩
      · dsimp only
        rw [hr.len]
        simp
      rw [Nat.mod_eq_of_lt hv, hno] at hov
      cases hov.2
    · rw [if_neg hov, if_neg hov, hr.ret, hr.len]
      refine ⟨rfl, by simp, fun hv _ => ?_⟩
      rw [if_neg (by simp)]
      exact hr.err hv

/-- A signed number is the number that was read, modulo the size of its type. -/
theorem signedNum_emod (w n : Nat) : signedNum w false n % 2 ^ w = (n : Int) % 2 ^ w := by
  have h := Int.bmod_emod (x := (n : Int)) (m := 2 ^ w)
  push_cast at h
  exact h

/-- What the parsers make of a text of digits. -/
theorem parseOf_digits (T : NumType) (h : Based fl b) (hz : fl.noBegZero = false)
    (hds : AllDigits fl.loc b ds) (hp : ¬ LooksPrefixed b ds) (pos : Nat) :
    (T.parseOf fl pos (ds.map some)).len = ds.length ∧
      (T.parseOf fl pos (ds.map some)).num % 2 ^ T.width =
        if T.signed = true ∧ fl.overflow = true ∧
            2 ^ (T.width - 1) - 1 < digitsVal fl.loc b ds % 2 ^ T.width
        then 2 ^ (T.width - 1) - 1 else (digitsVal fl.loc b ds : Int) % 2 ^ T.width := by
  by_cases hne : ds = []
  · subst hne
    have hbeg : ∃ e, numBegOf fl pos [] = .bad e := by
      unfold numBegOf signedOf
      split
      · exact ⟨_, if_pos (Nat.le_refl _)⟩
      · split <;> exact ⟨_, rfl⟩
    obtain ⟨e, hbeg⟩ := hbeg
    have hparse : T.parseOf fl pos [] = ⟨0, 0, e⟩ := by
      unfold NumType.parseOf sfuncOf ufuncOf
      rw [hbeg]
      split <;> rfl
    rw [List.map_nil, hparse]
    simp [digitsVal]
  · unfold NumType.parseOf
    by_cases hs : T.signed = true
    · obtain ⟨hnum, hlen, -⟩ := sfuncOf_all [] h hz hds hp T.width_cases hne (.inl rfl)
        (by simp) (by simp) pos
      rw [if_pos hs]
      rw [List.map_nil, List.nil_append] at hnum hlen
      refine ⟨by simpa using hlen, ?_⟩
      have hover : parseNumOver T.width false (digitsVal fl.loc b ds % 2 ^ T.width) = true ↔
          2 ^ (T.width - 1) - 1 < digitsVal fl.loc b ds % 2 ^ T.width := by
        have hlt : digitsVal fl.loc b ds % 2 ^ T.width < 2 ^ T.width :=
          Nat.mod_lt _ (Nat.two_pow_pos _)
        rcases T.width_cases with hw | hw
        · rw [hw, parseNumOver_short]
          simp
        · rw [parseNumOver_wide hw hlt]
          simp
      have hplus : decide (([] : List UInt8) = [0x2D]) = false := rfl
      rw [hnum, hplus, signedNum_emod]
      by_cases hov : fl.overflow = true ∧
          2 ^ (T.width - 1) - 1 < digitsVal fl.loc b ds % 2 ^ T.width
      · rw [if_pos ⟨hov.1, hover.mpr hov.2⟩, if_pos ⟨hs, hov⟩]
        rcases T.width_cases with hw | hw | hw <;> rw [hw] <;> rfl
      · rw [if_neg (fun hc => hov ⟨hc.1, hover.mp hc.2⟩), if_neg (fun hc => hov hc.2)]
        push_cast
        exact Int.emod_emod_of_dvd _ (Int.dvd_refl _)
    · obtain ⟨hnum, hlen, -⟩ := ufuncOf_all h hz hds hp T.width_cases hne pos
      rw [if_neg hs, if_neg (fun hc => hs hc.1)]
      refine ⟨hlen, ?_⟩
      dsimp only
      rw [hnum]
      push_cast
      exact Int.emod_emod_of_dvd _ (Int.dvd_refl _)

/-! ## When prefixes do not matter -/

/-- The bases that a call may ask for. -/
theorem numBase_eq (hb : fl.base = 0 ∨ 2 ≤ fl.base ∧ fl.base ≤ 36) : fl.numBase = fl.base := by
  unfold ParseNumFlags.numBase
  split
  · omega
  · rw [if_neg (by omega), if_neg (by omega)]

/-- A text of digits has nothing before them. -/
theorem behindSign_digits (fl : ParseNumFlags) {loc : Bool} (hds : AllDigits loc b ds) :
    behindSign fl (ds.map some) = some (ds.map some) := by
  have hspace : 0 = spanOf [0x20] (ds.map some) := spanOf_zero (hds.notAmong (by simp))
  have hsign : signOf (([] : List UInt8).map some ++ ds.map some) = some (0, false) :=
    signOf_eq (.inl rfl) (hds.notAmong (by simp))
  rw [List.map_nil, List.nil_append] at hsign
  unfold behindSign
  dsimp only
  rw [← hspace, List.drop_zero, ite_self, hsign]
  simp

/-- A letter that is skipped and does not name the base. -/
theorem PrefixAt.slips (hb : fl.base = 0 ∨ 2 ≤ fl.base ∧ fl.base ≤ 36)
    {ys : List (Option UInt8)} (hys : behindSign fl xs = some ys) {c : UInt8}
    (hat : PrefixAt fl c ys) (hc : ¬ Names fl.base c) : LetterSlips fl xs := by
  obtain ⟨hbase, zs, rfl, h⟩ := hat
  rw [numBase_eq hb] at hbase
  have hne : fl.base ≠ 0 := fun h0 => hc (.inr (.inr h0))
  rcases hbase.resolve_left hne with h16 | h2
  · rcases h with ⟨hx, -⟩ | ⟨hbb, hz⟩
    · exact absurd (.inl ⟨h16, hx⟩) hc
    · exact .sixteen c zs h16 hys hbb hz
  · rcases h with ⟨hx, hz⟩ | ⟨hbb, -⟩
    · exact .two c zs h2 hys hx hz
    · exact absurd (.inr (.inl ⟨h2, hbb⟩)) hc

/-- A text of digits that looks like one with a prefix. -/
theorem LooksPrefixed.slips (hz : fl.noBegZero = false) (hds : AllDigits false fl.base ds)
    (hp : LooksPrefixed fl.base ds) : LetterSlips fl (ds.map some) := by
  have hbehind := behindSign_digits fl hds
  obtain ⟨hb, c, es, rfl, hc⟩ := hp
  have hdig := hds c (by simp)
  have two : ∀ c ∈ prefixLetters, ¬ (asciiDigit false 2 c).isSome := by
    simp [prefixLetters, asciiDigit]
  have sixteen : ∀ c ∈ prefixLetters, (asciiDigit false 16 c).isSome →
      c ∈ ([0x62, 0x42] : List UInt8) := by simp [prefixLetters, asciiDigit]
  rcases hb with hb | hb
  · rw [hb] at hdig hds
    have hcb := sixteen c hc hdig
    by_cases hes : NotAmong [0x62, 0x42] (es.map some)
    · exact .sixteen c (es.map some) hb hbehind hcb hes
    · cases es with
      | nil => exact absurd (fun c hc => by cases hc) hes
      | cons d es =>
        have hd : d ∈ ([0x62, 0x42] : List UInt8) := by
          by_contra hd
          refine hes fun d' hd' => ?_
          obtain rfl := Option.some.inj (Option.some.inj hd')
          exact hd
        exact .twice c d es hb hz rfl hcb hd fun c' hc' => hds c' (by simp [hc'])
  · rw [hb] at hdig
    exact absurd hdig (two c hc)

/-- A zero and two letters `b`. -/
theorem parseOf_twice (T : NumType) {c d : UInt8} (hb : fl.base = 16)
    (hc : c ∈ ([0x62, 0x42] : List UInt8)) (hd : d ∈ ([0x62, 0x42] : List UInt8))
    (hall : AllDigits false 16 es) (pos : Nat) :
    (T.parseOf fl pos ((0x30 :: c :: d :: es).map some)).len = 1 := by
  have hnb : fl.numBase = 16 := by
    rw [numBase_eq (.inr (by omega)), hb]
  have hdig : ∀ c ∈ ([0x62, 0x42] : List UInt8), (asciiDigit false 16 c).isSome ∧
      c ∉ ([0x30] : List UInt8) ∧ c ∉ ([0x78, 0x58] : List UInt8) := by simp [asciiDigit]
  have hds : AllDigits false 16 (0x30 :: c :: d :: es) := by
    intro e he
    rcases List.mem_cons.mp he with rfl | he
    · decide
    rcases List.mem_cons.mp he with rfl | he
    · exact (hdig _ hc).1
    rcases List.mem_cons.mp he with rfl | he
    · exact (hdig _ hd).1
    · exact hall e he
  have hnot : ∀ chrs : List UInt8, c ∉ chrs → NotAmong chrs ((c :: d :: es).map some) := by
    intro chrs h c' hc'
    obtain rfl := Option.some.inj (Option.some.inj hc')
    exact h
  have hz : spanOf [0x30] ((0x30 :: c :: d :: es).map some) = 1 :=
    spanOf_one.mpr ⟨0x30, _, rfl, by decide, hnot _ (hdig c hc).2.1⟩
  have hx : 0 = spanOf [0x78, 0x58] ((c :: d :: es).map some) :=
    spanOf_zero (hnot _ (hdig c hc).2.2)
  have hbb : 1 < spanOf [0x62, 0x42] ((c :: d :: es).map some) := by
    have h1 := spanOf_pos hd (es.map some)
    have h2 : spanOf [0x62, 0x42] ((c :: d :: es).map some) =
        spanOf [0x62, 0x42] (some d :: es.map some) + 1 := by
      unfold spanOf
      rw [List.map_cons, List.takeWhile_cons, if_pos (by simpa using hc)]
      rfl
    omega
  have hbeg : ∃ err, numBegOf fl pos ((0x30 :: c :: d :: es).map some) =
      .zero (es.length + 2) err := by
    have h : numBegOf fl pos (([] : List UInt8).map some ++ (0x30 :: c :: d :: es).map some) = _ :=
      numBegOf_signed (hds.loc (by decide) fl.loc).1 (List.cons_ne_nil _ _) (.inl rfl) pos
    rw [List.map_nil, List.nil_append] at h
    refine ⟨.oob, ?_⟩
    rw [h]
    unfold digitsOf prefixOf
    rw [hz, hnb, if_neg (by simp), if_pos ⟨rfl, .inr (.inl rfl)⟩, List.map_cons, List.drop_one,
      List.tail_cons, if_neg (by simp), ← hx, if_neg (by decide), if_neg (by decide), if_pos hbb]
    simp
  obtain ⟨err, hbeg⟩ := hbeg
  unfold NumType.parseOf sfuncOf ufuncOf
  rw [hbeg]
  split <;> simp

/-- A letter that is skipped. -/
theorem PrefixExact.names {T : NumType} {r : ParsedInt} (h : PrefixExact T fl pos xs r)
    (hb : fl.base = 16 ∨ fl.base = 2) {c : UInt8} {zs : List (Option UInt8)}
    (hys : behindSign fl xs = some (some 0x30 :: some c :: zs))
    (hc : c ∈ ([0x78, 0x58] : List UInt8) ∧ NotAmong [0x78, 0x58] zs ∨
      c ∈ ([0x62, 0x42] : List UInt8) ∧ NotAmong [0x62, 0x42] zs) : Names fl.base c := by
  refine h.skips c ((numBegOf_skips fl pos xs c).mpr ⟨_, hys, ?_, zs, rfl, hc⟩)
  rw [numBase_eq (.inr (by omega))]
  exact .inr hb

/-- The letters `x` and `b` are not the same. -/
theorem letters_disjoint {c : UInt8} (h : c ∈ ([0x62, 0x42] : List UInt8)) :
    c ∉ ([0x78, 0x58] : List UInt8) := by
  have hall : ∀ c ∈ ([0x62, 0x42] : List UInt8), c ∉ ([0x78, 0x58] : List UInt8) := by simp
  exact hall c h

/-- A letter that is wrongly taken for a prefix. -/
theorem LetterSlips.not_exact {T : NumType} (h : LetterSlips fl xs) :
    ¬ PrefixExact T fl pos xs (T.parseOf fl pos xs) := by
  intro he
  cases h with
  | sixteen c zs hb h hc hz =>
    rcases he.names (.inl hb) h (.inr ⟨hc, hz⟩) with ⟨-, hx⟩ | ⟨h2, -⟩ | h0
    · exact letters_disjoint hc hx
    · omega
    · omega
  | two c zs hb h hc hz =>
    rcases he.names (.inr hb) h (.inl ⟨hc, hz⟩) with ⟨h16, -⟩ | ⟨-, hbb⟩ | h0
    · omega
    · exact letters_disjoint hbb hc
    · omega
  | twice c d es hb hz h hc hd hall =>
    subst h
    have hdig : ∀ c ∈ ([0x62, 0x42] : List UInt8), (asciiDigit false 16 c).isSome := by
      simp [asciiDigit]
    have hds : AllDigits false fl.base (0x30 :: c :: d :: es) := by
      rw [hb]
      intro e he
      simp only [List.mem_cons] at he
      rcases he with rfl | rfl | rfl | he
      · decide
      · exact hdig _ hc
      · exact hdig _ hd
      · exact hall e he
    obtain ⟨hlen, -⟩ := he.digits (by omega) hz _ rfl hds
    rw [parseOf_twice T hb hc hd hall, List.length_cons, List.length_cons] at hlen
    omega

/-- What the parsers make of a text of digits without a prefix. -/
theorem parseOf_all (T : NumType) (hb : 2 ≤ fl.base ∧ fl.base ≤ 36) (hz : fl.noBegZero = false)
    (hds : AllDigits false fl.base ds) (hp : ¬ LooksPrefixed fl.base ds) (pos : Nat) :
    (T.parseOf fl pos (ds.map some)).len = ds.length ∧
      (T.parseOf fl pos (ds.map some)).num % 2 ^ T.width =
        if T.signed = true ∧ fl.overflow = true ∧
            2 ^ (T.width - 1) - 1 < digitsVal false fl.base ds % 2 ^ T.width
        then 2 ^ (T.width - 1) - 1 else (digitsVal false fl.base ds : Int) % 2 ^ T.width := by
  have hbased : Based fl fl.base := ⟨numBase_eq (.inr hb), by omega, hb.1, hb.2⟩
  obtain ⟨hloc, hval⟩ := hds.loc hb.2 fl.loc
  have h := parseOf_digits T hbased hz hloc hp pos
  rwa [hval] at h

/-- The parsers are exact on the texts without a slip, and on no others. -/
theorem parseOf_prefix_iff (T : NumType) (hb : fl.base = 0 ∨ 2 ≤ fl.base ∧ fl.base ≤ 36)
    (pos : Nat) (xs : List (Option UInt8)) :
    PrefixExact T fl pos xs (T.parseOf fl pos xs) ↔ ¬ (LetterSlips fl xs ∨ Saturates T fl xs) := by
  refine ⟨?_, fun h => ⟨?_, ?_⟩⟩
  · rintro he (h | ⟨hs, ho, hb2, hz, ds, rfl, hds, hbig⟩)
    · exact h.not_exact he
    · by_cases hp : LooksPrefixed fl.base ds
      · exact (hp.slips hz hds).not_exact he
      · have hnum := (he.digits hb2 hz ds rfl hds).2
        rw [(parseOf_all T (by omega) hz hds hp pos).2, if_pos ⟨hs, ho, hbig⟩] at hnum
        have h1 : ((2 ^ (T.width - 1) - 1 : Nat) : Int) =
            (digitsVal false fl.base ds % 2 ^ T.width : Nat) := by
          push_cast
          rw [← hnum]
          rcases T.width_cases with hw | hw | hw <;> rw [hw] <;> rfl
        omega
  · rintro hb2 hz ds rfl hds
    have hp : ¬ LooksPrefixed fl.base ds := fun hp => h (.inl (hp.slips hz hds))
    obtain ⟨hlen, hnum⟩ := parseOf_all T (by omega) hz hds hp pos
    refine ⟨hlen, hnum.trans (if_neg ?_)⟩
    rintro ⟨hs, ho, hbig⟩
    exact h (.inr ⟨hs, ho, hb2, hz, ds, rfl, hds, hbig⟩)
  · intro c hc
    by_contra hn
    obtain ⟨ys, hys, hat⟩ := (numBegOf_skips fl pos xs c).mp hc
    exact h (.inl (hat.slips hb hys hn))

/-- **Prefixes.** Every parser reads a text of digits whole, and skips only the letter that
names the base, exactly on the texts without a slip. -/
theorem prefix_exact_iff (wd : Window E P s pos len xs) (T : NumType)
    (hb : fl.base = 0 ∨ 2 ≤ fl.base ∧ fl.base ≤ 36) :
    PrefixExact T fl pos xs (T.parse fl pos len s).1 ↔
      ¬ (LetterSlips fl xs ∨ Saturates T fl xs) := by
  have h : (T.parse fl pos len s).1 = T.parseOf fl pos xs := (parse_yields wd T fl).1
  rw [h]
  exact parseOf_prefix_iff T hb pos xs

/-- The text of 291 in base 16, with a prefix. -/
def text0x123 : List UInt8 := [0x30, 0x78, 0x31, 0x32, 0x33]

/-- A number in base 16. -/
def sixteenFlags : ParseNumFlags where
  base := 16
  loc := false
  sep := false
  overflow := false
  space := false
  noBegZero := false
  noBegPm := false

/-- The prefix of base 16 is skipped in base 16. -/
theorem prefix_exact_0x123 :
    PrefixExact .uint sixteenFlags 1 (text0x123.map some)
      (NumType.uint.parse sixteenFlags 1 text0x123.length (written text0x123)).1 := by
  obtain ⟨P, wd⟩ := window_text text0x123
  refine (prefix_exact_iff wd .uint (.inr (by decide))).mpr ?_
  have hbehind : behindSign sixteenFlags (text0x123.map some) = some (text0x123.map some) := by
    decide
  rintro (h | ⟨h, -⟩)
  · cases h with
    | sixteen c zs hb h hc hz =>
      have h' := hbehind.symm.trans h
      obtain rfl : (0x78 : UInt8) = c := by simpa [text0x123] using (List.cons.inj
        (List.cons.inj (Option.some.inj h')).2).1
      exact absurd hc (by decide)
    | two c zs hb => exact absurd hb (by decide)
    | twice c d es hb hz h hc =>
      obtain rfl : (0x78 : UInt8) = c := by simpa [text0x123] using (List.cons.inj
        (List.cons.inj h).2).1
      exact absurd hc (by decide)
  · exact absurd h (by decide)

/-- Three digits of base 16. -/
def text0b1 : List UInt8 := [0x30, 0x62, 0x31]

/-- The number 177 in base 16 is read as one. -/
theorem prefix_loses_digit :
    (∃ P, Window alone P (written text0b1) 1 text0b1.length (text0b1.map some)) ∧
    AllDigits false 16 text0b1 ∧ digitsVal false 16 text0b1 = 177 ∧
    (NumType.uint.parse sixteenFlags 1 text0b1.length (written text0b1)).1 = ⟨1, 3, .none⟩ ∧
    ¬ PrefixExact .uint sixteenFlags 1 (text0b1.map some)
      (NumType.uint.parse sixteenFlags 1 text0b1.length (written text0b1)).1 := by
  obtain ⟨P, wd⟩ := window_text text0b1
  have hds : AllDigits false 16 text0b1 := by
    unfold AllDigits
    simp [text0b1, asciiDigit]
  have hval : digitsVal false 16 text0b1 = 177 := by decide
  have hparse : (NumType.uint.parse sixteenFlags 1 text0b1.length (written text0b1)).1 =
      ⟨1, 3, .none⟩ := by
    refine (parse_yields wd .uint sixteenFlags).1.trans ?_
    decide
  refine ⟨⟨P, wd⟩, hds, hval, hparse, fun h => ?_⟩
  have hnum := (h.digits (by decide) rfl text0b1 rfl hds).2
  rw [hparse] at hnum
  exact absurd hnum (by decide)

end Vstr
