import Vstr.Model.Ip
import Vstr.Model.IpFmt
import Vstr.Parse.Number
import Mathlib.Data.Nat.Digits.Lemmas

/-!
# Numbers as text

The texts that the conversions `%u`, `%X` and `%04X` give, and what the number parser reads
from them: the number again, unless the text looks like a prefix.
-/

namespace Vstr

variable {b k w pos : Nat} {loc : Bool} {fl : ParseNumFlags} {ds : List UInt8}
  {xs ys rest : List (Option UInt8)}

/-- The base does not come from a prefix. -/
structure Based (fl : ParseNumFlags) (b : Nat) : Prop where
  /-- The base. -/
  base : fl.numBase = b
  /-- It is given. -/
  base_ne : fl.base ≠ 0
  /-- The base has at least two digits. -/
  two_le : 2 ≤ b
  /-- There are characters for all digits. -/
  le : b ≤ 36

/-- The flags of numbers without signs, spaces and separators. -/
structure Plain (fl : ParseNumFlags) (b : Nat) : Prop extends Based fl b where
  /-- No spaces. -/
  space : fl.space = false
  /-- No signs. -/
  noBegPm : fl.noBegPm = true
  /-- No separators. -/
  sep : fl.sep = false

theorem plain_ten (loc nz : Bool) : Plain (ipNumFlags 10 loc nz) 10 :=
  ⟨⟨rfl, by simp [ipNumFlags], by decide, by decide⟩, rfl, rfl, rfl⟩

theorem plain_sixteen (loc nz : Bool) : Plain (ipNumFlags 16 loc nz) 16 :=
  ⟨⟨rfl, by simp [ipNumFlags], by decide, by decide⟩, rfl, rfl, rfl⟩

theorem numBegOf_plain (h : Plain fl b) (pos : Nat) (xs : List (Option UInt8)) :
    numBegOf fl pos xs = digitsOf fl pos xs false := by
  rw [numBegOf, h.space, if_neg (by decide), signedOf, h.noBegPm, if_pos rfl]

/-- The letters of a prefix. -/
def prefixLetters : List UInt8 := [0x78, 0x58, 0x62, 0x42]

theorem NotAmong.mono {as bs : List UInt8} (h : NotAmong bs xs) (hs : ∀ c ∈ as, c ∈ bs) :
    NotAmong as xs := fun c hc ha => h c hc (hs c ha)

/-- Zeros at the beginning. -/
theorem digitsOf_zeros (h : Based fl b) (hz : k = 0 ∨ fl.noBegZero = false)
    (hys : NotAmong [0x30] ys) (hp : k = 1 → b = 16 ∨ b = 2 → NotAmong prefixLetters ys)
    (hne : k ≠ 0 ∨ ys ≠ []) (isNeg : Bool) :
    digitsOf fl pos ((List.replicate k 0x30).map some ++ ys) isNeg =
      if ys = [] then .zero 0 .none else .digits b (pos + k) ys.length isNeg (k ≠ 0) := by
  have hspan : spanOf [0x30] ((List.replicate k 0x30).map some ++ ys) = k := by
    rw [spanOf_eq (fun a ha => by simp [List.eq_of_mem_replicate ha]) hys, List.length_replicate]
  have hlen : ((List.replicate k (0x30 : UInt8)).map some ++ ys).length = k + ys.length := by
    simp
  have hlen0 : ys.length = 0 ↔ ys = [] := List.length_eq_zero_iff
  have hxs : ¬ k + ys.length = 0 := by
    rintro e
    rcases hne with hk | hy
    · omega
    · exact hy (hlen0.mp (by omega))
  have hzeros : ∀ zeroed, parseNumZeros fl b pos (k + ys.length) k isNeg zeroed =
      if ys = [] then .zero 0 .none else .digits b (pos + k) ys.length isNeg zeroed := by
    intro zeroed
    unfold parseNumZeros
    rw [if_neg (by
      rintro ⟨hk, hn⟩
      rcases hz with hz | hz
      · exact hk hz
      · rw [hz] at hn
        cases hn)]
    by_cases hy : ys = []
    · rw [if_pos hy, if_pos (by rw [hy]; simp)]
    · have := mt hlen0.mp hy
      rw [if_neg hy, if_neg (by omega), show k + ys.length - k = ys.length by omega]
  have hb2 := h.two_le
  unfold digitsOf
  rw [hspan, hlen, if_neg hxs, h.base]
  by_cases hpre : k = 1 ∧ (b = 0 ∨ b = 16 ∨ b = 2)
  · rw [if_pos hpre]
    obtain ⟨rfl, hbase⟩ := hpre
    have hlet := hp rfl (hbase.resolve_left (by omega))
    have hx : 0 = spanOf [0x78, 0x58] ys := spanOf_zero (hlet.mono (by simp [prefixLetters]))
    have hbb : 0 = spanOf [0x62, 0x42] ys := spanOf_zero (hlet.mono (by simp [prefixLetters]))
    change prefixOf fl b (pos + 1) ys isNeg = _
    unfold prefixOf
    rw [← hx, ← hbb]
    by_cases hy : ys = []
    · rw [if_pos (hlen0.mpr hy), if_pos hy]
    · have hy' := mt hlen0.mp hy
      rw [if_neg hy', if_neg (by omega), if_neg (by omega), if_neg (by omega), if_neg (by omega),
        if_neg hy, if_neg h.base_ne, parseNumZeros, if_neg (by omega), if_neg (by omega)]
      rfl
  · rw [if_neg hpre, if_neg (by omega), if_neg (by omega)]
    exact hzeros _

/-- Zeros, and digits that go on. -/
theorem ufuncOf_number (h : Plain fl b) (w pos : Nat) (hz : k = 0 ∨ fl.noBegZero = false)
    (hds : AllDigits fl.loc b ds) (hrest : NoDigit fl.loc b rest)
    (hys : NotAmong [0x30] (ds.map some ++ rest))
    (hp : k = 1 → b = 16 ∨ b = 2 → NotAmong prefixLetters (ds.map some ++ rest))
    (hne : k ≠ 0 ∨ ds.map some ++ rest ≠ []) :
    (ufuncOf w fl pos ((List.replicate k 0x30).map some ++ (ds.map some ++ rest))).num =
        digitsVal fl.loc b ds % 2 ^ w ∧
      (ufuncOf w fl pos ((List.replicate k 0x30).map some ++ (ds.map some ++ rest))).len =
        k + ds.length := by
  unfold ufuncOf
  rw [numBegOf_plain h, digitsOf_zeros h.toBased hz hys hp hne]
  by_cases hy : ds.map some ++ rest = []
  · obtain ⟨h1, rfl⟩ := List.append_eq_nil_iff.mp hy
    obtain rfl : ds = [] := by simpa using h1
    rw [if_pos hy]
    simp [digitsVal]
  · obtain ⟨e, he, -⟩ := numLoopOf_digits h.sep w h.le hds hrest (decide (k ≠ 0))
      ⟨0, (ds.map some ++ rest).length, .none⟩
    have hdrop : ((List.replicate k (0x30 : UInt8)).map some ++ (ds.map some ++ rest)).drop
        (((List.replicate k (0x30 : UInt8)).map some ++ (ds.map some ++ rest)).length -
          (ds.map some ++ rest).length) = ds.map some ++ rest := by
      rw [List.length_append, Nat.add_sub_cancel]
      exact List.drop_left
    rw [if_neg hy]
    dsimp only
    rw [hdrop, he]
    refine ⟨?_, ?_⟩
    · exact Numeral.value_mod b (2 ^ w) _
    · simp
      omega

/-- Zeros, or nothing. -/
theorem ufuncOf_zeros (h : Plain fl b) (w pos : Nat) (hz : k = 0 ∨ fl.noBegZero = false)
    (hrest : NoDigit fl.loc b rest) (h0 : NotAmong [0x30] rest)
    (hp : k = 1 → b = 16 ∨ b = 2 → NotAmong prefixLetters rest) (hne : k ≠ 0 ∨ rest ≠ []) :
    (ufuncOf w fl pos ((List.replicate k 0x30).map some ++ rest)).num = 0 ∧
      (ufuncOf w fl pos ((List.replicate k 0x30).map some ++ rest)).len = k := by
  have hds : AllDigits fl.loc b [] := fun c hc => by cases hc
  have h := ufuncOf_number h w pos hz hds hrest h0 hp hne
  rwa [show digitsVal fl.loc b [] % 2 ^ w = 0 from Nat.zero_mod _] at h

/-- A zero that ends a number. -/
theorem ufuncOf_begZero (h : Plain fl 10) (w pos : Nat) (hz : fl.noBegZero = true)
    (hrest : NotAmong [0x30] rest) :
    (ufuncOf w fl pos (some 0x30 :: rest)).num = 0 ∧
      (ufuncOf w fl pos (some 0x30 :: rest)).len = 1 := by
  have hone : ∀ a ∈ [(0x30 : UInt8)], a ∈ [(0x30 : UInt8)] := fun a ha => ha
  have hspan : spanOf [0x30] (some 0x30 :: rest) = 1 := spanOf_eq hone hrest
  unfold ufuncOf
  rw [numBegOf_plain h, digitsOf, hspan, h.base, if_neg (by simp), if_neg (by omega),
    if_neg (by omega), parseNumZeros, if_pos ⟨by omega, hz⟩]
  simp

/-! ## The conversions -/

/-- The bases of the conversions. -/
def TextBase (b : Nat) : Prop := b = 10 ∨ b = 16

theorem TextBase.le (h : TextBase b) : b ≤ 16 := by
  rcases h with rfl | rfl <;> decide

theorem TextBase.one_lt (h : TextBase b) : 1 < b := by
  rcases h with rfl | rfl <;> decide

theorem TextBase.plain (h : TextBase b) (loc nz : Bool) : Plain (ipNumFlags b loc nz) b := by
  rcases h with rfl | rfl
  · exact plain_ten loc nz
  · exact plain_sixteen loc nz

/-- The parser knows the character of a digit. -/
theorem asciiDigit_digitChr (hb : TextBase b) (loc : Bool) {d : Nat} (hd : d < b) :
    asciiDigit loc b (digitChr d) = some d := by
  have ten : ∀ loc, ∀ d : Fin 10, asciiDigit loc 10 (digitChr d) = some d.val := by decide
  have sixteen : ∀ loc, ∀ d : Fin 16, asciiDigit loc 16 (digitChr d) = some d.val := by decide
  rcases hb with rfl | rfl
  · exact ten loc ⟨d, hd⟩
  · exact sixteen loc ⟨d, hd⟩

/-- The characters of digits. -/
theorem digitChr_eq {d : Nat} (hd : d < 16) : (digitChr d = 0x30 ↔ d = 0) ∧
    (digitChr d ∈ prefixLetters ↔ d = 11) ∧ digitChr d ≠ 0x3A ∧ digitChr d ≠ 0x2F ∧
    digitChr d ≠ 0x2E := by
  have h : ∀ d : Fin 16, (digitChr d = 0x30 ↔ d.val = 0) ∧
      (digitChr d ∈ prefixLetters ↔ d.val = 11) ∧ digitChr d ≠ 0x3A ∧ digitChr d ≠ 0x2F ∧
      digitChr d ≠ 0x2E := by decide
  exact h ⟨d, hd⟩

/-- The digits of a number, most significant first. -/
def digitList (b n : Nat) : List Nat := (Nat.digits b n).reverse

theorem digitList_lt (hb : TextBase b) {n d : Nat} (hd : d ∈ digitList b n) : d < b :=
  Nat.digits_lt_base hb.one_lt (List.mem_reverse.mp hd)

theorem value_digitList (b n : Nat) : Numeral.value b (digitList b n) = n := by
  rw [digitList, Numeral.value_reverse, Nat.ofDigits_digits]

theorem head_digitList {b n d : Nat} (hn : n ≠ 0) (hd : (digitList b n).head? = some d) :
    d ≠ 0 := by
  have h := Nat.getLast_digit_ne_zero b hn
  rw [digitList, List.head?_reverse, List.getLast?_eq_getLast_of_ne_nil
    (Nat.digits_ne_nil_iff_ne_zero.mpr hn)] at hd
  rwa [Option.some.inj hd] at h

theorem numText_eq {n : Nat} (hn : n ≠ 0) : numText b n = (digitList b n).map digitChr :=
  if_neg hn

/-- The digits of characters of digits. -/
theorem map_digitChr (hb : TextBase b) (loc : Bool) {ls : List Nat} (h : ∀ d ∈ ls, d < b) :
    (ls.map digitChr).map (fun c => (asciiDigit loc b c).getD 0) = ls := by
  rw [List.map_map]
  conv_rhs => rw [← List.map_id ls]
  refine List.map_congr_left fun d hd => ?_
  rw [Function.comp_apply, asciiDigit_digitChr hb loc (h d hd)]
  rfl

theorem allDigits_map (hb : TextBase b) (loc : Bool) {ls : List Nat} (h : ∀ d ∈ ls, d < b) :
    AllDigits loc b (ls.map digitChr) := by
  intro c hc
  obtain ⟨d, hd, rfl⟩ := List.mem_map.mp hc
  rw [asciiDigit_digitChr hb loc (h d hd)]
  rfl

/-- The text of a number has a character. -/
theorem numText_ne_nil (b n : Nat) : numText b n ≠ [] := by
  unfold numText
  split
  · simp
  · rename_i hn
    simpa [Nat.digits_eq_nil_iff_eq_zero] using hn

/-- The characters of a number. -/
theorem mem_numText (hb : TextBase b) {n : Nat} {c : UInt8} (hc : c ∈ numText b n) :
    ∃ d < b, c = digitChr d := by
  unfold numText at hc
  split at hc
  · exact ⟨0, by have := hb.one_lt; omega, List.mem_singleton.mp hc⟩
  · obtain ⟨d, hd, rfl⟩ := List.mem_map.mp hc
    exact ⟨d, digitList_lt hb hd, rfl⟩

/-- What may stand behind a number. -/
structure Stops (loc : Bool) (b : Nat) (rest : List (Option UInt8)) : Prop where
  /-- The digits end. -/
  noDigit : NoDigit loc b rest
  /-- No prefix begins. -/
  noPrefix : NotAmong prefixLetters rest

theorem stops_nil (loc : Bool) (b : Nat) : Stops loc b [] :=
  ⟨(fun x ys e => by cases e), fun c hc => by cases hc⟩

theorem NoDigit.take (h : NoDigit loc b rest) (n : Nat) : NoDigit loc b (rest.take n) := by
  intro y ys e
  cases n with
  | zero => cases e
  | succ n =>
    cases rest with
    | nil => cases e
    | cons x xs =>
      refine h y xs ?_
      rw [(List.cons.inj e).1]

/-- Numbers end at a dot and at a slash. -/
theorem stops_cons (loc : Bool) (b : Nat) {c : UInt8} (hc : c.toNat < 0x30) :
    Stops loc b (some c :: rest) := by
  refine ⟨fun x ys e => ?_, fun c' hc' hmem => ?_⟩
  · rw [← (List.cons.inj e).1, Option.getD_some]
    exact asciiDigit_of_lt loc b hc
  · obtain rfl := Option.some.inj (Option.some.inj hc')
    have hall : ∀ c ∈ prefixLetters, 0x30 ≤ c.toNat := by simp [prefixLetters]
    have := hall _ hmem
    omega

theorem NoDigit.notAmong_zero (hb : TextBase b) (h : NoDigit loc b rest) :
    NotAmong [0x30] rest := by
  intro c hc hmem
  obtain rfl := List.mem_singleton.mp hmem
  obtain ⟨ys, rfl⟩ := List.head?_eq_some_iff.mp hc
  have h0 := h _ _ rfl
  have e : asciiDigit loc b (digitChr 0) = some 0 :=
    asciiDigit_digitChr hb loc (by have := hb.one_lt; omega)
  rw [show (some 0x30 : Option UInt8).getD 0 = digitChr 0 from rfl, e] at h0
  cases h0

/-- A number does not begin with zero. -/
theorem notAmong_digitList (hb : TextBase b) {n : Nat} (h0 : n ≠ 0) :
    NotAmong [0x30] (((digitList b n).map digitChr).map some ++ rest) := by
  have hne : digitList b n ≠ [] := by
    simpa [digitList, Nat.digits_eq_nil_iff_eq_zero] using h0
  intro c hc hmem
  obtain rfl := List.mem_singleton.mp hmem
  obtain ⟨d, ls, e⟩ := List.exists_cons_of_ne_nil hne
  rw [e] at hc
  have hd := head_digitList h0 (show (digitList b n).head? = some d by rw [e]; rfl)
  have hlt := digitList_lt (n := n) (d := d) hb (by simp [e])
  have := hb.le
  exact hd ((digitChr_eq (by omega)).1.mp (Option.some.inj (Option.some.inj hc)))

/-- A number is read from its text, as far as an `unsigned int` holds it. -/
theorem ufuncOf_numText_mod (hb : TextBase b) (loc nz : Bool) (hnz : nz = true → b = 10) (n : Nat)
    (hr : NoDigit loc b rest) (hp : b = 16 → NotAmong prefixLetters rest) (pos : Nat) :
    (ufuncOf 32 (ipNumFlags b loc nz) pos ((numText b n).map some ++ rest)).num = n % 2 ^ 32 ∧
      (ufuncOf 32 (ipNumFlags b loc nz) pos ((numText b n).map some ++ rest)).len =
        (numText b n).length := by
  by_cases h0 : n = 0
  · subst h0
    have ht : numText b 0 = [0x30] := if_pos rfl
    rw [ht]
    cases nz with
    | true =>
      obtain rfl := hnz rfl
      exact ufuncOf_begZero (plain_ten loc true) 32 pos rfl (hr.notAmong_zero hb)
    | false =>
      refine ufuncOf_zeros (k := 1) (hb.plain loc false) 32 pos (.inr rfl) hr
        (hr.notAmong_zero hb) (fun _ h => hp ?_) (.inl one_ne_zero)
      have := hb.one_lt
      rcases hb with rfl | rfl <;> omega
  · rw [numText_eq h0]
    have hlt : ∀ d ∈ digitList b n, d < b := fun d hd => digitList_lt hb hd
    have hne : digitList b n ≠ [] := by
      simpa [digitList, Nat.digits_eq_nil_iff_eq_zero] using h0
    have h := ufuncOf_number (k := 0) (hb.plain loc nz) 32 pos (.inl rfl)
      (allDigits_map hb loc hlt) hr (notAmong_digitList hb h0) (fun h => absurd h (by decide))
      (.inr (by simp [hne]))
    rw [digitsVal, show (ipNumFlags b loc nz).loc = loc from rfl, map_digitChr hb loc hlt,
      value_digitList] at h
    exact ⟨h.1, by rw [← Nat.zero_add (List.length _)]; exact h.2⟩

/-- A number is read back from its text. -/
theorem ufuncOf_numText (hb : TextBase b) (loc nz : Bool) (hnz : nz = true → b = 10) {n : Nat}
    (hn : n < 2 ^ 32) (hr : Stops loc b rest) (pos : Nat) :
    (ufuncOf 32 (ipNumFlags b loc nz) pos ((numText b n).map some ++ rest)).num = n ∧
      (ufuncOf 32 (ipNumFlags b loc nz) pos ((numText b n).map some ++ rest)).len =
        (numText b n).length := by
  have h := ufuncOf_numText_mod hb loc nz hnz n hr.noDigit (fun _ => hr.noPrefix) pos
  rwa [Nat.mod_eq_of_lt hn] at h

/-- A number that is not too large is read back where no other digit follows. -/
theorem ufuncOf_decimal (loc nz : Bool) {n : Nat} (hn : n < 2 ^ 32) (hr : NoDigit loc 10 rest)
    (pos : Nat) :
    (ufuncOf 32 (ipNumFlags 10 loc nz) pos ((numText 10 n).map some ++ rest)).num = n ∧
      (ufuncOf 32 (ipNumFlags 10 loc nz) pos ((numText 10 n).map some ++ rest)).len =
        (numText 10 n).length := by
  have h := ufuncOf_numText_mod (.inl rfl) loc nz (fun _ => rfl) n hr (fun h => by cases h) pos
  rwa [Nat.mod_eq_of_lt hn] at h

/-- The length of the text of a number. -/
theorem length_numText_le (hb : TextBase b) {n m : Nat} (hm : 1 ≤ m) (hn : n < b ^ m) :
    (numText b n).length ≤ m := by
  unfold numText
  split
  · exact hm
  · rw [List.length_map, List.length_reverse]
    exact (Nat.digits_length_le_iff hb.one_lt n).mpr hn

/-- A number of four hexadecimal digits has four characters. -/
theorem length_hexText4 {n : Nat} (hn : n < 65536) : (hexText4 n).length = 4 := by
  have h := length_numText_le (.inr rfl) (show 1 ≤ 4 by omega) (show n < 16 ^ 4 by omega)
  rw [hexText4, List.length_append, List.length_replicate]
  omega

theorem mem_hexText4 {n : Nat} {c : UInt8} (hc : c ∈ hexText4 n) : ∃ d < 16, c = digitChr d := by
  rcases List.mem_append.mp hc with hc | hc
  · exact ⟨0, by decide, List.eq_of_mem_replicate hc⟩
  · exact mem_numText (.inr rfl) hc

/-- The digits of a number of three digits. -/
theorem digitList_three {n : Nat} (h1 : 256 ≤ n) (h2 : n < 4096) :
    digitList 16 n = [n / 256, n / 16 % 16, n % 16] := by
  have h : Nat.digits 16 n = [n % 16, n / 16 % 16, n / 256] := by
    rw [Nat.digits_eq_cons_digits_div (by decide) (by omega),
      Nat.digits_eq_cons_digits_div (by decide) (by omega),
      Nat.digits_eq_cons_digits_div (by decide) (by omega), Nat.div_div_eq_div_mul,
      Nat.div_div_eq_div_mul, show n / (16 * (16 * 16)) = 0 by omega, Nat.digits_zero,
      show n / (16 * 16) % 16 = n / 256 by omega]
  rw [digitList, h]
  rfl

/-- The text of four digits, unless it begins like a prefix. -/
theorem ufuncOf_hexText4 (loc : Bool) {n : Nat} (hn : n < 65536) (hB : n / 256 ≠ 0x0B)
    (hr : Stops loc 16 rest) (pos : Nat) :
    (ufuncOf 32 (ipNumFlags 16 loc false) pos ((hexText4 n).map some ++ rest)).num = n ∧
      (ufuncOf 32 (ipNumFlags 16 loc false) pos ((hexText4 n).map some ++ rest)).len = 4 := by
  have hb : TextBase 16 := .inr rfl
  by_cases h0 : n = 0
  · subst h0
    have ht : (hexText4 0).map some = (List.replicate 4 (0x30 : UInt8)).map some := rfl
    rw [ht]
    exact ufuncOf_zeros (hb.plain loc false) 32 pos (.inr rfl) hr.noDigit
      (hr.noDigit.notAmong_zero hb) (fun h => absurd h (by decide)) (.inl (by decide))
  · have hlen := length_numText_le hb (show 1 ≤ 4 by omega) (show n < 16 ^ 4 by omega)
    have hlt : ∀ d ∈ digitList 16 n, d < 16 := fun d hd => digitList_lt hb hd
    rw [numText_eq h0, List.length_map] at hlen
    have hp : 4 - (digitList 16 n).length = 1 → 16 = 16 ∨ 16 = 2 →
        NotAmong prefixLetters (((digitList 16 n).map digitChr).map some ++ rest) := by
      intro hk _ c hc hmem
      have h3 : (digitList 16 n).length = 3 := by omega
      rw [digitList, List.length_reverse] at h3
      have h1 := (Nat.lt_digits_length_iff (k := 2) (show 1 < 16 by decide) n).mp (by omega)
      have h2 := (Nat.digits_length_le_iff (k := 3) (show 1 < 16 by decide) n).mp (by omega)
      rw [digitList_three (by omega) (by omega)] at hc
      obtain rfl := Option.some.inj (Option.some.inj hc)
      exact hB ((digitChr_eq (by omega)).2.1.mp hmem)
    have h := ufuncOf_number (k := 4 - (digitList 16 n).length) (hb.plain loc false) 32 pos
      (.inr rfl) (allDigits_map hb loc hlt) hr.noDigit (notAmong_digitList hb h0) hp
      (.inr (by simp [digitList, Nat.digits_eq_nil_iff_eq_zero, h0]))
    rw [digitsVal, show (ipNumFlags 16 loc false).loc = loc from rfl, map_digitChr hb loc hlt,
      value_digitList, Nat.mod_eq_of_lt (show n < 2 ^ 32 by omega), List.length_map,
      show 4 - (digitList 16 n).length + (digitList 16 n).length = 4 by omega] at h
    rw [hexText4, numText_eq h0, List.map_append, List.append_assoc, List.length_map]
    exact h

/-- The text of a number from `0x0B00` on begins like a prefix. -/
theorem hexText4_prefix {n : Nat} (hB : n / 256 = 0x0B) :
    hexText4 n = [0x30, 0x42, digitChr (n / 16 % 16), digitChr (n % 16)] := by
  rw [hexText4, numText_eq (by omega), digitList_three (by omega) (by omega), hB]
  rfl

/-- A zero and a letter `B` are a prefix. -/
theorem numBegOf_prefixed (loc : Bool) {x : UInt8} (hx : x = 0x62 ∨ x = 0x42) (hne : ys ≠ [])
    (pos : Nat) :
    numBegOf (ipNumFlags 16 loc false) pos (some 0x30 :: some x :: ys) =
      if spanOf [0x62, 0x42] ys = 0 then
        parseNumZeros (ipNumFlags 16 loc false) 16 (pos + 1 + 1) ys.length (spanOf [0x30] ys)
          false true
      else .zero (ys.length + 1) .oob := by
  have hlen : ys.length ≠ 0 := mt List.length_eq_zero_iff.mp hne
  have h0 : spanOf [0x30] (some 0x30 :: some x :: ys) = 1 := by
    rcases hx with rfl | rfl <;> rfl
  have hxx : spanOf [0x78, 0x58] (some x :: ys) = 0 := by
    rcases hx with rfl | rfl <;> rfl
  have hb : spanOf [0x62, 0x42] (some x :: ys) = spanOf [0x62, 0x42] ys + 1 := by
    rcases hx with rfl | rfl <;> rfl
  rw [numBegOf_plain (plain_sixteen loc false), digitsOf, h0, if_neg (by simp),
    if_pos ⟨rfl, .inr (.inl rfl)⟩, List.drop_one, List.tail_cons, prefixOf, hxx, hb,
    if_neg (by simp), if_neg (by omega), if_neg (by omega), List.length_cons]
  by_cases h : spanOf [0x62, 0x42] ys = 0
  · rw [if_neg (by omega), if_pos (by omega), if_pos h, letterOf, List.length_cons,
      Nat.add_sub_cancel, if_neg hlen]
    rfl
  · rw [if_pos (by omega), if_neg h]

/-- A prefix with nothing behind it is no number. -/
theorem ufuncOf_prefix_alone (loc : Bool) {x : UInt8} (hx : x = 0x62 ∨ x = 0x42) (pos : Nat) :
    (ufuncOf 32 (ipNumFlags 16 loc false) pos [some 0x30, some x]).len = 0 := by
  rcases hx with rfl | rfl <;> rfl

/-- Of a prefix with another letter `B` behind it only the zero is read. -/
theorem ufuncOf_prefix_twice (loc : Bool) {x y : UInt8} (hx : x = 0x62 ∨ x = 0x42)
    (hy : y = 0x62 ∨ y = 0x42) (pos : Nat) :
    (ufuncOf 32 (ipNumFlags 16 loc false) pos (some 0x30 :: some x :: some y :: ys)).num = 0 ∧
      (ufuncOf 32 (ipNumFlags 16 loc false) pos (some 0x30 :: some x :: some y :: ys)).len = 1 := by
  have hb : ¬ spanOf [0x62, 0x42] (some y :: ys) = 0 := by
    have : spanOf [0x62, 0x42] (some y :: ys) = spanOf [0x62, 0x42] ys + 1 := by
      rcases hy with rfl | rfl <;> rfl
    omega
  unfold ufuncOf
  rw [numBegOf_prefixed loc hx (List.cons_ne_nil _ _), if_neg hb]
  simp

/-- Digits behind a prefix. -/
theorem ufuncOf_behind_prefix (loc : Bool) {x : UInt8} (hx : x = 0x62 ∨ x = 0x42)
    (hds : AllDigits loc 16 ds) (hr : NoDigit loc 16 rest)
    (hz : NotAmong [0x30] (ds.map some ++ rest))
    (hb : spanOf [0x62, 0x42]
      ((List.replicate k 0x30).map some ++ (ds.map some ++ rest)) = 0)
    (hne : (List.replicate k (0x30 : UInt8)).map some ++ (ds.map some ++ rest) ≠ []) (pos : Nat) :
    (ufuncOf 32 (ipNumFlags 16 loc false) pos (some 0x30 :: some x ::
        ((List.replicate k 0x30).map some ++ (ds.map some ++ rest)))).num =
          digitsVal loc 16 ds % 2 ^ 32 ∧
      (ufuncOf 32 (ipNumFlags 16 loc false) pos (some 0x30 :: some x ::
        ((List.replicate k 0x30).map some ++ (ds.map some ++ rest)))).len = 2 + k + ds.length := by
  generalize hys : (List.replicate k (0x30 : UInt8)).map some ++ (ds.map some ++ rest) = ys
    at hb hne ⊢
  have hspan : spanOf [0x30] ys = k := by
    rw [← hys, spanOf_eq (fun a ha => by simp [List.eq_of_mem_replicate ha]) hz,
      List.length_replicate]
  have hlen : ys.length = k + ds.length + rest.length := by
    rw [← hys]
    simp
    omega
  unfold ufuncOf
  rw [numBegOf_prefixed loc hx hne, if_pos hb, hspan, parseNumZeros,
    if_neg (by simp [ipNumFlags])]
  by_cases hkl : k = ys.length
  · obtain rfl : ds = [] := List.length_eq_zero_iff.mp (by omega)
    rw [if_pos hkl]
    simp only [List.length_cons, List.length_nil, Nat.sub_zero]
    exact ⟨rfl, by omega⟩
  · obtain ⟨e, he, -⟩ := numLoopOf_digits (plain_sixteen loc false).sep 32 (show 16 ≤ 36 by decide)
      hds hr true ⟨0, ys.length - k, .none⟩
    have hdrop : (some 0x30 :: some x :: ys).drop
        ((some 0x30 :: some x :: ys).length - (ys.length - k)) = ds.map some ++ rest := by
      rw [List.length_cons, List.length_cons,
        show ys.length + 1 + 1 - (ys.length - k) = k + 2 by omega, List.drop_succ_cons,
        List.drop_succ_cons, ← hys]
      exact List.drop_left' (by simp)
    rw [if_neg hkl]
    dsimp only
    rw [hdrop, he]
    refine ⟨?_, ?_⟩
    · exact Numeral.value_mod 16 (2 ^ 32) _
    · rw [if_neg Bool.false_ne_true]
      simp only [List.length_cons]
      omega

/-- Two digits behind a prefix. -/
theorem ufuncOf_two_behind (loc : Bool) (ls : List Nat) (hk : k + ls.length = 2)
    (hls : ∀ d ∈ ls, d < 16) (hr : NoDigit loc 16 rest)
    (hz : NotAmong [0x30] ((ls.map digitChr).map some ++ rest))
    (hb : spanOf [0x62, 0x42]
      ((List.replicate k 0x30).map some ++ ((ls.map digitChr).map some ++ rest)) = 0)
    (pos : Nat) :
    (ufuncOf 32 (ipNumFlags 16 loc false) pos (some 0x30 :: some 0x42 ::
        ((List.replicate k 0x30).map some ++ ((ls.map digitChr).map some ++ rest)))).num =
          Numeral.value 16 ls ∧
      (ufuncOf 32 (ipNumFlags 16 loc false) pos (some 0x30 :: some 0x42 ::
        ((List.replicate k 0x30).map some ++ ((ls.map digitChr).map some ++ rest)))).len = 4 := by
  have hv : Numeral.value 16 ls < 2 ^ 32 :=
    calc Numeral.value 16 ls < 16 ^ ls.length := Numeral.value_lt hls
      _ ≤ 16 ^ 2 := Nat.pow_le_pow_right (by decide) (by omega)
      _ < 2 ^ 32 := by decide
  have hne : (List.replicate k (0x30 : UInt8)).map some ++ ((ls.map digitChr).map some ++ rest) ≠
      [] := by
    intro h
    have := congrArg List.length h
    simp only [List.length_append, List.length_map, List.length_replicate, List.length_nil] at this
    omega
  have h := ufuncOf_behind_prefix loc (.inr rfl) (allDigits_map (.inr rfl) loc hls) hr hz hb hne pos
  rw [digitsVal, map_digitChr (.inr rfl) loc hls, Nat.mod_eq_of_lt hv, List.length_map] at h
  exact ⟨h.1, h.2.trans (by omega)⟩

/-- Behind a prefix only two digits are left. -/
theorem ufuncOf_prefix (loc : Bool) {d e : Nat} (hd : d < 16) (he : e < 16)
    (hr : Stops loc 16 rest) : ∃ v l, v < 256 ∧ 1 ≤ l ∧ l ≤ 4 ∧ ∀ pos,
      (ufuncOf 32 (ipNumFlags 16 loc false) pos
        ([0x30, 0x42, digitChr d, digitChr e].map some ++ rest)).num = v ∧
      (ufuncOf 32 (ipNumFlags 16 loc false) pos
        ([0x30, 0x42, digitChr d, digitChr e].map some ++ rest)).len = l := by
  by_cases hB : d = 11
  · refine ⟨0, 1, by decide, by decide, by decide, fun pos => ?_⟩
    subst hB
    exact ufuncOf_prefix_twice loc (.inr rfl) (.inr rfl) pos
  · have hb : ∀ zs : List (Option UInt8), spanOf [0x62, 0x42] (some (digitChr d) :: zs) = 0 := by
      intro zs
      refine (spanOf_zero fun c hc hmem => hB ?_).symm
      obtain rfl := Option.some.inj (Option.some.inj hc)
      refine (digitChr_eq hd).2.1.mp ?_
      rcases List.mem_cons.mp hmem with h | h
      · rw [h]
        decide
      · rw [List.mem_singleton.mp h]
        decide
    have digit : ∀ {d : Nat} (zs : List (Option UInt8)), d < 16 → d ≠ 0 →
        NotAmong [0x30] (some (digitChr d) :: zs) := by
      intro d zs hd h0 c hc hmem
      obtain rfl := Option.some.inj (Option.some.inj hc)
      exact h0 ((digitChr_eq hd).1.mp (List.mem_singleton.mp hmem))
    by_cases h0 : d = 0
    · subst h0
      by_cases h1 : e = 0
      · subst h1
        exact ⟨0, 4, by decide, by decide, by decide, ufuncOf_two_behind (k := 2) loc [] rfl
          (fun d hd => by cases hd) hr.noDigit (hr.noDigit.notAmong_zero (.inr rfl)) rfl⟩
      · have hv : Numeral.value 16 [e] < 256 := by
          rw [Numeral.value, List.foldl_cons, List.foldl_nil]
          omega
        exact ⟨_, 4, hv, by decide, by decide, ufuncOf_two_behind (k := 1) loc [e] rfl
          (by simpa using he) hr.noDigit (digit rest he h1) rfl⟩
    · have hv : Numeral.value 16 [d, e] < 256 := by
        rw [Numeral.value, List.foldl_cons, List.foldl_cons, List.foldl_nil]
        omega
      exact ⟨_, 4, hv, by decide, by decide, ufuncOf_two_behind (k := 0) loc [d, e] rfl
        (by simp [hd, he]) hr.noDigit (digit _ hd h0) (hb _)⟩

end Vstr
