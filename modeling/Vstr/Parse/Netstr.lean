import Vstr.Parse.Number

/-!
# Netstrings

`vstr_parse_netstr` against the grammar of netstrings: a decimal number, a colon, as many
bytes as the number says, and a comma.
-/

namespace Vstr

open Memory Splice Query

variable {E : Env} {P : Own} {s : St} {pos len : Nat} {xs rest : List (Option UInt8)}
  {netstr2 : Bool} {sgn ds : List UInt8}

/-! ## The number -/

/-- Decimal digits. -/
def Decimal (ds : List UInt8) : Prop := ∀ c ∈ ds, 0x30 ≤ c.toNat ∧ c.toNat ≤ 0x39

/-- The number that decimal digits denote. -/
def decimal (ds : List UInt8) : Nat := Numeral.value 10 (ds.map fun c => c.toNat - 0x30)

/-- No leading zero, but for the number zero; `netstr2` allows them. -/
def LeadOk (netstr2 : Bool) (ds : List UInt8) : Prop :=
  netstr2 = true ∨ ds = [0x30] ∨ ds.head? ≠ some 0x30

/-- What the number parser takes for the length: there may be a sign. -/
structure Taken (netstr2 : Bool) (sgn ds : List UInt8) : Prop where
  /-- The digits are decimal. -/
  decimal : Decimal ds
  /-- Leading zeros. -/
  lead : LeadOk netstr2 ds
  /-- Digits without a sign, a plus with or without digits, or a minus and a zero. -/
  sign : (sgn = [] ∧ ds ≠ []) ∨ sgn = [0x2B] ∨ (netstr2 = false ∧ sgn = [0x2D] ∧ ds = [0x30])

/-- Every character of a length field is a sign or a digit. -/
theorem Taken.chars (tk : Taken netstr2 sgn ds) {c : UInt8} (hc : c ∈ sgn ++ ds) :
    c = 0x2B ∨ c = 0x2D ∨ (0x30 ≤ c.toNat ∧ c.toNat ≤ 0x39) := by
  rcases List.mem_append.mp hc with hc | hc
  · rcases tk.sign with ⟨rfl, -⟩ | rfl | ⟨-, rfl, -⟩
    · cases hc
    · exact .inl (List.mem_singleton.mp hc)
    · exact .inr (.inl (List.mem_singleton.mp hc))
  · exact .inr (.inr (tk.decimal c hc))

theorem Taken.ne_comma (tk : Taken netstr2 sgn ds) {c : UInt8} (hc : c ∈ sgn ++ ds) :
    c ≠ 0x2C := by
  rintro rfl
  exact absurd (tk.chars hc) (by decide)

theorem Taken.ne_colon (tk : Taken netstr2 sgn ds) : 0x3A ∉ sgn ++ ds := fun hc =>
  absurd (tk.chars hc) (by decide)

theorem allDigits_ten : AllDigits false 10 ds ↔ Decimal ds := by
  unfold AllDigits Decimal
  refine forall₂_congr fun c _ => ?_
  rw [asciiDigit_ten]
  split <;> simp_all

theorem digits_decimal (hd : Decimal ds) :
    (ds.map fun c => (asciiDigit false 10 c).getD 0) = ds.map fun c => c.toNat - 0x30 := by
  refine List.map_congr_left fun c hc => ?_
  rw [asciiDigit_ten, if_pos (hd c hc)]
  rfl

theorem noDigit_colon (rest : List (Option UInt8)) : NoDigit false 10 (some 0x3A :: rest) := by
  intro x ys e
  obtain ⟨rfl, -⟩ := List.cons.inj e
  decide

/-- The base of the length field is ten. -/
theorem digitsOf_netstr (netstr2 : Bool) (pos : Nat) (xs : List (Option UInt8)) (isNeg : Bool) :
    digitsOf (netstrFlags netstr2) pos xs isNeg =
      if xs.length = 0 then .bad .onlySpm
      else parseNumZeros (netstrFlags netstr2) 10 pos xs.length (spanOf [0x30] xs) isNeg
        (spanOf [0x30] xs ≠ 0) := by
  have hb : (netstrFlags netstr2).numBase = 10 := rfl
  unfold digitsOf
  rw [hb]
  simp

/-- A sign that is taken is there. -/
theorem signOf_some {k : Nat} {neg : Bool} (h : signOf xs = some (k, neg)) :
    ∃ (sgn : List UInt8) (ys : List (Option UInt8)), xs = sgn.map some ++ ys ∧ sgn.length = k ∧
      (((sgn = [] ∨ sgn = [0x2B]) ∧ neg = false) ∨ (sgn = [0x2D] ∧ neg = true)) := by
  have one : ∀ {a : UInt8} {as : List UInt8}, (∀ b ∈ as, b ∈ [a]) → as.length ≤ 1 →
      as = [] ∨ as = [a] := by
    intro a as ha hl
    match as, hl with
    | [], _ => exact .inl rfl
    | [b], _ => exact .inr (by simpa using ha b)
  unfold signOf at h
  split at h
  · cases h
  · rename_i hm
    split at h
    · split at h
      · cases h
      · rename_i hp
        obtain ⟨rfl, rfl⟩ := Prod.mk.inj (Option.some.inj h)
        obtain ⟨as, ys, e, hl, ha, -⟩ := spanOf_split [0x2B] xs
        exact ⟨as, ys, e, hl, .inl ⟨one ha (by omega), rfl⟩⟩
    · rename_i hm'
      obtain ⟨rfl, rfl⟩ := Prod.mk.inj (Option.some.inj h)
      obtain ⟨as, ys, e, hl, ha, -⟩ := spanOf_split [0x2D] xs
      refine ⟨as, ys, e, hl, .inr ⟨?_, rfl⟩⟩
      rcases one ha (by omega) with rfl | rfl
      · exact absurd hl.symm hm'
      · rfl

/-- A byte that is known. -/
theorem byteAt_split {i : Nat} {c : UInt8} (hc : c ≠ 0) (h : byteAt xs i = c) :
    ∃ rest, xs = xs.take i ++ some c :: rest := by
  unfold byteAt at h
  cases hx : xs[i]? with
  | none =>
    rw [hx] at h
    exact absurd h.symm hc
  | some x =>
    rw [hx] at h
    obtain ⟨hi, e⟩ := List.getElem?_eq_some_iff.mp hx
    cases x with
    | none => exact absurd h.symm hc
    | some c' =>
      obtain rfl : c' = c := h
      refine ⟨xs.drop (i + 1), ?_⟩
      rw [← e, List.getElem_cons_drop, List.take_append_drop]

theorem notAmong_digits {chrs : List UInt8} (hd : Decimal ds)
    (hc : ∀ c, ds.head? = some c → c ∉ chrs) (h3A : 0x3A ∉ chrs) :
    NotAmong chrs (ds.map some ++ some 0x3A :: rest) := by
  intro c hh
  cases ds with
  | nil =>
    obtain rfl : 0x3A = c := Option.some.inj (Option.some.inj hh)
    exact h3A
  | cons d ds =>
    obtain rfl : d = c := Option.some.inj (Option.some.inj hh)
    exact hc d rfl

/-- The beginning of a length field, once its sign is known. -/
theorem numBegOf_netstr {k : Nat} {neg : Bool} (h : signOf xs = some (k, neg)) (pos : Nat) :
    numBegOf (netstrFlags netstr2) pos xs =
      digitsOf (netstrFlags netstr2) (pos + k) (xs.drop k) neg := by
  change signedOf (netstrFlags netstr2) pos xs = _
  unfold signedOf
  rw [h]
  rfl

/-- What the number parser takes is read modulo `2 ^ 64`. -/
theorem ufuncOf_taken (tk : Taken netstr2 sgn ds) (pos : Nat) (rest : List (Option UInt8)) :
    ∃ e, ufuncOf 64 (netstrFlags netstr2) pos ((sgn ++ ds).map some ++ some 0x3A :: rest) =
      ⟨decimal ds % 2 ^ 64, sgn.length + ds.length, e⟩ := by
  obtain ⟨z, ds', rfl, hhead⟩ := exists_zeros ds
  have hdec : Decimal ds' := fun c hc => tk.decimal c (by simp [hc])
  have hsgn : sgn = [] ∨ sgn = [0x2B] ∨ sgn = [0x2D] := by
    rcases tk.sign with ⟨h, -⟩ | h | ⟨-, h, -⟩
    · exact .inl h
    · exact .inr (.inl h)
    · exact .inr (.inr h)
  rw [List.map_append, List.append_assoc]
  generalize hys : (List.replicate z 0x30 ++ ds').map some ++ some 0x3A :: rest = ys
  have hylen : ys.length = z + ds'.length + (rest.length + 1) := by
    rw [← hys]
    simp
    omega
  have hsign : NotAmong [0x2B, 0x2D] ys := by
    rw [← hys]
    refine notAmong_digits tk.decimal (fun c hc hin => ?_) (by decide)
    have := tk.decimal c (List.mem_of_mem_head? hc)
    rcases List.mem_cons.mp hin with rfl | hin
    · exact absurd this (by decide)
    · obtain rfl := List.mem_singleton.mp hin
      exact absurd this (by decide)
  have hspan : spanOf [0x30] ys = z := by
    rw [← hys, List.map_append, List.append_assoc]
    rw [spanOf_eq (fun a ha => by simp [List.eq_of_mem_replicate ha])
      (notAmong_digits hdec (fun c hc hin => ?_) (by decide)), List.length_replicate]
    rw [List.mem_singleton.mp hin] at hc
    exact hhead hc
  have hlen : (sgn.map some ++ ys).length = sgn.length + ys.length := by simp
  have hdrop : (sgn.map some ++ ys).drop sgn.length = ys := List.drop_left' (by simp)
  unfold ufuncOf
  rw [numBegOf_netstr (signOf_eq hsgn hsign), hdrop, digitsOf_netstr, hspan, if_neg (by omega)]
  unfold parseNumZeros
  by_cases hz : z ≠ 0 ∧ (netstrFlags netstr2).noBegZero = true
  · obtain rfl : netstr2 = false := by
      have := hz.2
      cases netstr2 <;> trivial
    have hone : List.replicate z 0x30 ++ ds' = [0x30] := by
      rcases tk.lead with h | h | h
      · cases h
      · exact h
      · obtain ⟨m, rfl⟩ : ∃ m, z = m + 1 := ⟨z - 1, by have := hz.1; omega⟩
        exact absurd rfl h
    have hsum := congrArg List.length hone
    rw [List.length_append, List.length_replicate, List.length_singleton] at hsum
    rw [if_pos hz]
    dsimp only
    rw [hone, hlen, show sgn.length + ys.length - (ys.length - 1) = sgn.length + 1 by omega]
    exact ⟨_, rfl⟩
  · have hneg : sgn ≠ [0x2D] := by
      rintro rfl
      rcases tk.sign with ⟨h, -⟩ | h | ⟨h, -, h0⟩
      · cases h
      · exact absurd h (by decide)
      · refine hz ⟨?_, by rw [h]; rfl⟩
        rintro rfl
        rw [List.replicate_zero, List.nil_append] at h0
        rw [h0] at hhead
        exact hhead rfl
    rw [if_neg hz, if_neg (by omega)]
    dsimp only
    rw [if_neg (by simpa using hneg), hlen,
      show sgn.length + ys.length - (ys.length - z) = sgn.length + z by omega, ← List.drop_drop,
      hdrop]
    have hzs : ys.drop z = ds'.map some ++ some 0x3A :: rest := by
      rw [← hys, List.map_append, List.append_assoc]
      exact List.drop_left' (by simp)
    have hsep : (netstrFlags netstr2).sep = false := rfl
    obtain ⟨e, he, -⟩ := numLoopOf_digits hsep 64 (show 10 ≤ 36 by omega)
      (allDigits_ten.mpr hdec) (noDigit_colon rest) (decide (z ≠ 0)) ⟨0, ys.length - z, .none⟩
    rw [hzs, he]
    dsimp only
    refine ⟨_, ParsedNum.mk.injEq .. |>.mpr ⟨?_, ?_, rfl⟩⟩
    · change List.foldl _ 0 (ds'.map fun c => (asciiDigit false 10 c).getD 0) = _
      rw [digits_decimal hdec, Numeral.value_mod, decimal, List.map_append, List.map_replicate,
        show UInt8.toNat 0x30 - 0x30 = 0 from rfl, Numeral.value_zeros]
    · rw [List.length_append, List.length_replicate]
      omega

/-- The number zero. -/
theorem taken_zero (h : sgn = [] ∨ sgn = [0x2B] ∨ sgn = [0x2D]) : Taken false sgn [0x30] where
  decimal := by
    intro c hc
    obtain rfl := List.mem_singleton.mp hc
    decide
  lead := .inr (.inl rfl)
  sign := by
    rcases h with rfl | rfl | rfl
    · exact .inl ⟨rfl, by simp⟩
    · exact .inr (.inl rfl)
    · exact .inr (.inr ⟨rfl, rfl, rfl⟩)

/-- Zeros and digits, where zeros are allowed. -/
theorem taken_digits {zs : List UInt8} (hzs : ∀ c ∈ zs, c = 0x30) (hd : Decimal ds)
    (hz : netstr2 = false → zs = []) (hhead : ds.head? ≠ some 0x30) (h : sgn = [] ∨ sgn = [0x2B])
    (hne : sgn.length + (zs ++ ds).length ≠ 0) : Taken netstr2 sgn (zs ++ ds) where
  decimal := by
    intro c hc
    rcases List.mem_append.mp hc with hc | hc
    · obtain rfl := hzs c hc
      decide
    · exact hd c hc
  lead := by
    cases netstr2 with
    | true => exact .inl rfl
    | false =>
      rw [hz rfl]
      exact .inr (.inr hhead)
  sign := by
    rcases h with rfl | rfl
    · refine .inl ⟨rfl, fun h => hne ?_⟩
      rw [h]
      rfl
    · exact .inr (.inl rfl)

/-- Where no sign can be read there is no length. -/
theorem ufuncOf_unsigned (h : signOf xs = none) (pos : Nat) :
    (ufuncOf 64 (netstrFlags netstr2) pos xs).len = 0 := by
  have hb : numBegOf (netstrFlags netstr2) pos xs = .bad .oob := by
    change signedOf (netstrFlags netstr2) pos xs = _
    unfold signedOf
    rw [h]
    rfl
  unfold ufuncOf
  rw [hb]

/-- A length field that is followed by a colon was taken. -/
theorem taken_of_ufuncOf {pos : Nat} (h0 : (ufuncOf 64 (netstrFlags netstr2) pos xs).len ≠ 0)
    (hl : (ufuncOf 64 (netstrFlags netstr2) pos xs).len ≠ xs.length)
    (hc : byteAt xs (ufuncOf 64 (netstrFlags netstr2) pos xs).len = 0x3A) :
    ∃ sgn ds rest, xs = (sgn ++ ds).map some ++ some 0x3A :: rest ∧ Taken netstr2 sgn ds := by
  obtain ⟨rest, hsplit⟩ := byteAt_split (by decide) hc
  cases hs : signOf xs with
  | none => exact absurd (ufuncOf_unsigned hs pos) h0
  | some p =>
    unfold ufuncOf at h0 hl hsplit
    obtain ⟨sgn, ys, rfl, hk, hsgn⟩ := signOf_some hs
    have hdrop : (sgn.map some ++ ys).drop p.1 = ys := List.drop_left' (by simpa using hk)
    have hlen : (sgn.map some ++ ys).length = p.1 + ys.length := by simp [hk]
    rw [numBegOf_netstr hs, hdrop, digitsOf_netstr, hlen] at h0 hl hsplit
    by_cases hy : ys.length = 0
    · rw [if_pos hy] at h0
      exact absurd rfl h0
    · rw [if_neg hy] at h0 hl hsplit
      obtain ⟨zs, ys', rfl, hz, hzs, hys'⟩ := spanOf_split [0x30] ys
      have hzs' : ∀ c ∈ zs, c = 0x30 := fun c hc => List.mem_singleton.mp (hzs c hc)
      have hylen : (zs.map some ++ ys').length = zs.length + ys'.length := by simp
      rw [← hz, hylen] at h0 hl hsplit
      unfold parseNumZeros at h0 hl hsplit
      by_cases hzz : zs.length ≠ 0 ∧ (netstrFlags netstr2).noBegZero = true
      · obtain rfl : netstr2 = false := by
          have := hzz.2
          cases netstr2 <;> trivial
        rw [if_pos hzz] at hsplit
        dsimp only at hsplit
        obtain ⟨c, zs', rfl⟩ := List.exists_cons_of_length_pos (show 0 < zs.length by omega)
        obtain rfl := hzs' c List.mem_cons_self
        rw [show p.1 + ((0x30 :: zs').length + ys'.length) - ((0x30 :: zs').length + ys'.length - 1)
          = p.1 + 1 by omega] at hsplit
        refine ⟨sgn, [0x30], rest, hsplit.trans ?_, taken_zero ?_⟩
        · congr 1
          rw [List.take_append, List.length_map, hk, List.take_of_length_le (by simp; omega),
            show p.1 + 1 - p.1 = 1 by omega, List.map_append]
          rfl
        · rcases hsgn with ⟨h | h, -⟩ | ⟨h, -⟩
          · exact .inl h
          · exact .inr (.inl h)
          · exact .inr (.inr h)
      · rw [if_neg hzz] at h0 hl hsplit
        by_cases hall : zs.length = zs.length + ys'.length
        · rw [if_pos hall] at hl
          exact absurd (Nat.sub_zero _) hl
        · rw [if_neg hall] at h0 hl hsplit
          dsimp only at h0 hl hsplit
          cases hneg : p.2 with
          | true =>
            rw [hneg] at h0
            exact absurd rfl h0
          | false =>
            rw [hneg] at h0 hsplit hsgn
            obtain ⟨ds', rest', rfl, hds', hrest'⟩ := exists_digits false 10 ys'
            have hdec := allDigits_ten.mp hds'
            have hsep : (netstrFlags netstr2).sep = false := rfl
            obtain ⟨e, he, -⟩ := numLoopOf_digits hsep 64 (show 10 ≤ 36 by omega) hds' hrest'
              (decide (zs.length ≠ 0)) ⟨0, zs.length + (ds'.map some ++ rest').length - zs.length,
                .none⟩
            have hxd : (sgn.map some ++ (zs.map some ++ (ds'.map some ++ rest'))).drop
                (p.1 + (zs.length + (ds'.map some ++ rest').length) -
                  (zs.length + (ds'.map some ++ rest').length - zs.length)) =
                ds'.map some ++ rest' := by
              rw [← List.append_assoc]
              refine List.drop_left' ?_
              simp
              omega
            rw [hxd, he] at h0 hsplit
            simp only [Bool.false_eq_true, if_false] at h0 hsplit
            have hidx : p.1 + (zs.length + (ds'.map some ++ rest').length) -
                (zs.length + (ds'.map some ++ rest').length - zs.length - ds'.length) =
                p.1 + zs.length + ds'.length := by
              simp
              omega
            rw [hidx] at h0 hsplit
            refine ⟨sgn, zs ++ ds', rest, hsplit.trans ?_,
              taken_digits hzs' hdec (fun h2 => ?_) (fun hh => ?_) ?_ (fun h => h0 ?_)⟩
            · congr 1
              rw [← List.append_assoc, ← List.append_assoc, List.take_left' (by simp; omega)]
              simp
            · by_contra hne
              exact hzz ⟨fun h => hne (List.length_eq_zero_iff.mp h), by rw [h2]; rfl⟩
            · cases ds' with
              | nil => cases hh
              | cons d ds' =>
                obtain rfl : d = 0x30 := Option.some.inj hh
                exact hys' 0x30 rfl (by simp)
            · rcases hsgn with ⟨h, -⟩ | ⟨-, h⟩
              · exact h
              · cases h
            · rw [List.length_append] at h
              omega

/-! ## The netstring -/

/-- `vstr__parse_netstr` on bytes. -/
def netstrOf (netstr2 : Bool) (pos : Nat) (xs : List (Option UInt8)) : ParsedNetstr :=
  let num := ufuncOf 64 (netstrFlags netstr2) pos xs
  let retLen := (num.num + (num.len + 2)) % 2 ^ 64
  if num.len = 0 then ⟨0, 0, 0⟩
  else if num.len = xs.length then ⟨0, 0, 0⟩
  else if byteAt xs num.len ≠ 0x3A then ⟨0, 0, 0⟩
  else if retLen > xs.length then ⟨0, pos + num.len + 1, num.num⟩
  else if byteAt xs (retLen - 1) ≠ 0x2C then ⟨0, pos + num.len + 1, num.num⟩
  else ⟨retLen, pos + num.len + 1, num.num⟩

/-- The parser answers from the bytes of the slice. -/
theorem parseNetstrAny_yields (w : Window E P s pos len xs) (netstr2 : Bool) :
    Yields Reads (parseNetstrAny netstr2 pos len) s (netstrOf netstr2 pos xs) := by
  unfold parseNetstrAny netstrOf
  refine (parseNumUfunc_yields w 64 (netstrFlags netstr2)).bind fun t r => ?_
  have w := w.reads r
  have h1 := w.one_le
  have h2 := w.le_len
  have hle := ufuncOf_len_le 64 (netstrFlags netstr2) pos xs
  rw [w.length] at hle ⊢
  generalize ufuncOf 64 (netstrFlags netstr2) pos xs = num at *
  dsimp only
  split
  · exact .pure _ _
  · split
    · exact .pure _ _
    · refine (w.chr (show num.len < len by omega)).bind fun t' r' => ?_
      have w := w.reads r'
      have h2 := w.le_len
      split
      · exact .pure _ _
      · split
        · exact .pure _ _
        · by_cases hz : (num.num + (num.len + 2)) % 2 ^ 64 = 0
          · rw [hz, ite_self]
            obtain ⟨c, hc⟩ : ∃ c, Yields Reads (exportChr (pos - 1 + 0)) t' c := by
              by_cases hp : pos = 1
              · subst hp
                exact exportChr_zero_yields w.usable (by omega)
              · exact ⟨_, exportChr_yields w.usable (by omega) (by omega)⟩
            refine hc.bind fun t'' r'' => ?_
            rw [ite_self]
            exact .pure _ _
          · have e : pos - 1 + (num.num + (num.len + 2)) % 2 ^ 64 =
                pos + ((num.num + (num.len + 2)) % 2 ^ 64 - 1) := by omega
            rw [e]
            refine (w.chr (show (num.num + (num.len + 2)) % 2 ^ 64 - 1 < len by omega)).bind
              fun t'' r'' => ?_
            split
            · exact .pure _ _
            · exact .pure _ _

/-- The bytes begin with a length field, a colon, as many bytes as `n` says, and a comma. -/
def Framed (xs : List (Option UInt8)) (field : List UInt8) (n : Nat) : Prop :=
  ∃ data rest, xs = field.map some ++ some 0x3A :: (data ++ some 0x2C :: rest) ∧ data.length = n

/-- A netstring at the beginning of the bytes: the length field is a number without a sign,
and the data is as long as it says. -/
def Netstring (netstr2 : Bool) (xs : List (Option UInt8)) (ds : List UInt8) : Prop :=
  ds ≠ [] ∧ Decimal ds ∧ LeadOk netstr2 ds ∧ Framed xs ds (decimal ds)

/-- What is parsed as a netstring and is none: its length field has a sign, or it denotes a
number that does not fit a `size_t`. -/
def Misread (netstr2 : Bool) (xs : List (Option UInt8)) : Prop :=
  ∃ sgn ds, Taken netstr2 sgn ds ∧ Framed xs (sgn ++ ds) (decimal ds % 2 ^ 64) ∧
    (sgn ≠ [] ∨ 2 ^ 64 ≤ decimal ds)

/-- What the parser accepts. -/
theorem netstrOf_framed (hl : xs.length < 2 ^ 64) (tk : Taken netstr2 sgn ds)
    (fr : Framed xs (sgn ++ ds) (decimal ds % 2 ^ 64)) (pos : Nat) :
    netstrOf netstr2 pos xs = ⟨sgn.length + ds.length + decimal ds % 2 ^ 64 + 2,
      pos + (sgn.length + ds.length) + 1, decimal ds % 2 ^ 64⟩ := by
  obtain ⟨data, rest, rfl, hd⟩ := fr
  obtain ⟨e, he⟩ := ufuncOf_taken tk pos (data ++ some 0x2C :: rest)
  have hlen : ((sgn ++ ds).map some ++ some 0x3A :: (data ++ some 0x2C :: rest)).length =
      sgn.length + ds.length + data.length + rest.length + 2 := by
    simp
    omega
  have hpos : 0 < sgn.length + ds.length := by
    rcases tk.sign with ⟨-, h⟩ | rfl | ⟨-, rfl, -⟩
    · have := List.length_pos_iff.mpr h
      omega
    · simp
    · simp
  have hcolon : byteAt ((sgn ++ ds).map some ++ some 0x3A :: (data ++ some 0x2C :: rest))
      (sgn.length + ds.length) = 0x3A := by
    rw [byteAt, List.getElem?_append_right (by simp)]
    simp
  have hcomma : byteAt ((sgn ++ ds).map some ++ some 0x3A :: (data ++ some 0x2C :: rest))
      (sgn.length + ds.length + data.length + 1) = 0x2C := by
    rw [byteAt, List.getElem?_append_right (by simp; omega), List.length_map, List.length_append,
      show sgn.length + ds.length + data.length + 1 - (sgn.length + ds.length) =
        data.length + 1 by omega, List.getElem?_cons_succ, List.getElem?_append_right (by omega)]
    simp
  rw [hlen] at hl
  unfold netstrOf
  rw [he]
  dsimp only
  rw [← hd, hlen,
    Nat.mod_eq_of_lt (show data.length + (sgn.length + ds.length + 2) < 2 ^ 64 by omega),
    if_neg (by omega), if_neg (by omega), hcolon, if_neg (by simp), if_neg (by omega),
    show data.length + (sgn.length + ds.length + 2) - 1 =
      sgn.length + ds.length + data.length + 1 by omega, hcomma, if_neg (by simp)]
  congr 1
  omega

/-- Whatever the parser accepts is of that form. -/
theorem framed_of_netstrOf (hl : xs.length < 2 ^ 64) {pos : Nat}
    (h : (netstrOf netstr2 pos xs).len ≠ 0) :
    ∃ sgn ds, Taken netstr2 sgn ds ∧ Framed xs (sgn ++ ds) (decimal ds % 2 ^ 64) := by
  unfold netstrOf at h
  dsimp only at h
  split at h
  · exact absurd rfl h
  · split at h
    · exact absurd rfl h
    · split at h
      · exact absurd rfl h
      · rename_i h0 hne hc
        obtain ⟨sgn, ds, tail, rfl, tk⟩ := taken_of_ufuncOf h0 hne (not_not.mp hc)
        obtain ⟨e, he⟩ := ufuncOf_taken tk pos tail
        rw [he] at h
        dsimp only at h
        split at h
        · exact absurd rfl h
        · split at h
          · exact absurd rfl h
          · rename_i hle hcomma
            have hcomma := not_not.mp hcomma
            have hlt := Nat.mod_lt (decimal ds) (show 0 < 2 ^ 64 by omega)
            refine ⟨sgn, ds, tk, ?_⟩
            generalize decimal ds % 2 ^ 64 = v at *
            have hk : ((sgn ++ ds).map some).length = sgn.length + ds.length := by simp
            have hlen : ((sgn ++ ds).map some ++ some 0x3A :: tail).length =
                sgn.length + ds.length + tail.length + 1 := by simp; omega
            rw [hlen] at hl
            by_cases hw : v + (sgn.length + ds.length + 2) < 2 ^ 64
            · rw [Nat.mod_eq_of_lt hw, byteAt, List.getElem?_append_right (by omega), hk,
                show v + (sgn.length + ds.length + 2) - 1 - (sgn.length + ds.length) = v + 1
                  by omega,
                List.getElem?_cons_succ] at hcomma
              obtain ⟨rest, hrest⟩ := byteAt_split (by decide) hcomma
              have hv := congrArg List.length hrest
              rw [List.length_append, List.length_take, List.length_cons] at hv
              exact ⟨tail.take v, rest, by rw [← hrest], by rw [List.length_take]; omega⟩
            · exfalso
              have hmod : (v + (sgn.length + ds.length + 2)) % 2 ^ 64 =
                  v + (sgn.length + ds.length + 2) - 2 ^ 64 := by
                rw [Nat.mod_eq_sub_mod (by omega), Nat.mod_eq_of_lt (by omega)]
              rw [hmod] at h hcomma
              by_cases hi : v + (sgn.length + ds.length + 2) - 2 ^ 64 - 1 < sgn.length + ds.length
              · rw [byteAt, List.getElem?_append_left (by omega), List.getElem?_map,
                  List.getElem?_eq_getElem (by simpa using hi)] at hcomma
                exact tk.ne_comma (List.getElem_mem _) hcomma
              · rw [byteAt, List.getElem?_append_right (by omega), hk,
                  show v + (sgn.length + ds.length + 2) - 2 ^ 64 - 1 - (sgn.length + ds.length) = 0
                    by omega] at hcomma
                have hne : (0x3A : UInt8) ≠ 0x2C := by decide
                exact hne hcomma

/-- A digit run before a colon is the only one. -/
theorem digits_unique {ds' : List UInt8} {rest' : List (Option UInt8)} (h : 0x3A ∉ ds)
    (h' : 0x3A ∉ ds')
    (e : ds.map some ++ some 0x3A :: rest = ds'.map some ++ some 0x3A :: rest') :
    ds = ds' ∧ rest = rest' := by
  induction ds generalizing ds' with
  | nil =>
    cases ds' with
    | nil => exact ⟨rfl, (List.cons.inj e).2⟩
    | cons d ds' =>
      obtain rfl : 0x3A = d := Option.some.inj (List.cons.inj e).1
      exact absurd List.mem_cons_self h'
  | cons d ds ih =>
    cases ds' with
    | nil =>
      obtain rfl : d = 0x3A := Option.some.inj (List.cons.inj e).1
      exact absurd List.mem_cons_self h
    | cons d' ds' =>
      obtain rfl : d = d' := Option.some.inj (List.cons.inj e).1
      obtain ⟨rfl, rfl⟩ := ih (fun hm => h (List.mem_cons_of_mem _ hm))
        (fun hm => h' (List.mem_cons_of_mem _ hm)) (List.cons.inj e).2
      exact ⟨rfl, rfl⟩

/-- A proper length field is taken. -/
theorem Netstring.taken (n : Netstring netstr2 xs ds) : Taken netstr2 [] ds :=
  ⟨n.2.1, n.2.2.1, .inl ⟨rfl, n.1⟩⟩

/-- The number of a netstring that is in the slice fits a `size_t`. -/
theorem Netstring.decimal_mod (n : Netstring netstr2 xs ds) (hl : xs.length < 2 ^ 64) :
    decimal ds % 2 ^ 64 = decimal ds := by
  obtain ⟨-, -, -, data, rest, rfl, hd⟩ := n
  refine Nat.mod_eq_of_lt ?_
  simp only [List.length_append, List.length_cons] at hl
  omega

/-- Nothing is both a netstring and misread. -/
theorem Netstring.not_misread (n : Netstring netstr2 xs ds) (hl : xs.length < 2 ^ 64) :
    ¬ Misread netstr2 xs := by
  have hmod := n.decimal_mod hl
  have tk' := n.taken
  obtain ⟨-, -, -, data, rest, e, hd⟩ := n
  rintro ⟨sgn, ds', tk, ⟨data', rest', e', hd'⟩, hbad⟩
  obtain ⟨hds, -⟩ := digits_unique tk'.ne_colon tk.ne_colon (e.symm.trans e')
  rw [List.nil_append] at hds
  have hsgn : sgn = [] := by
    rcases tk.sign with ⟨h, -⟩ | rfl | ⟨-, rfl, -⟩
    · exact h
    · exact absurd (tk'.decimal 0x2B (by simp [hds])) (by decide)
    · exact absurd (tk'.decimal 0x2D (by simp [hds])) (by decide)
  rw [hsgn, List.nil_append] at hds
  rcases hbad with hs | hb
  · exact hs hsgn
  · rw [← hds] at hb
    have := Nat.mod_lt (decimal ds) (show 0 < 2 ^ 64 by omega)
    omega

/-- The result of the parser is the netstring at the beginning of the slice, if there is
one. -/
def Exact (netstr2 : Bool) (pos : Nat) (xs : List (Option UInt8)) (r : ParsedNetstr) : Prop :=
  (r.len ≠ 0 ↔ ∃ ds, Netstring netstr2 xs ds) ∧
    ∀ ds, Netstring netstr2 xs ds →
      r = ⟨ds.length + decimal ds + 2, pos + ds.length + 1, decimal ds⟩

/-- `vstr_parse_netstr` and `vstr_parse_netstr2` parse the netstring at the beginning of a
slice exactly when the slice does not begin with something that they misread. -/
theorem parseNetstrAny_exact (u : Usable E P s) (hs : s.base.len < 2 ^ 64) (h1 : 1 ≤ pos)
    (h2 : pos + len ≤ s.base.len + 1) (netstr2 : Bool) :
    Exact netstr2 pos (slice (content s) pos len) ((parseNetstrAny netstr2 pos len).run s).1 ↔
      ¬ Misread netstr2 (slice (content s) pos len) := by
  have w : Window E P s pos len (slice (content s) pos len) := ⟨u, h1, h2, rfl⟩
  have hl : (slice (content s) pos len).length < 2 ^ 64 := by
    rw [w.length]
    omega
  rw [(parseNetstrAny_yields w netstr2).1]
  generalize slice (content s) pos len = xs at *
  constructor
  · rintro ⟨hiff, -⟩ hm
    obtain ⟨sgn, ds, tk, fr, -⟩ := id hm
    have h0 : (netstrOf netstr2 pos xs).len ≠ 0 := by
      rw [netstrOf_framed hl tk fr]
      simp
    obtain ⟨ds', n⟩ := hiff.mp h0
    exact n.not_misread hl hm
  · intro hm
    have accept : ∀ ds, Netstring netstr2 xs ds →
        netstrOf netstr2 pos xs =
          ⟨ds.length + decimal ds + 2, pos + ds.length + 1, decimal ds⟩ := by
      intro ds n
      have hmod := n.decimal_mod hl
      have fr : Framed xs ([] ++ ds) (decimal ds % 2 ^ 64) := by
        rw [hmod]
        exact n.2.2.2
      rw [netstrOf_framed hl n.taken fr, hmod]
      simp
    refine ⟨⟨fun h => ?_, ?_⟩, accept⟩
    · obtain ⟨sgn, ds, tk, fr⟩ := framed_of_netstrOf hl h
      have hbad : ¬ (sgn ≠ [] ∨ 2 ^ 64 ≤ decimal ds) := fun hb => hm ⟨sgn, ds, tk, fr, hb⟩
      obtain ⟨hsgn, hlt⟩ := not_or.mp hbad
      obtain rfl := not_not.mp hsgn
      rw [Nat.mod_eq_of_lt (by omega)] at fr
      rcases tk.sign with ⟨-, hne⟩ | h | ⟨-, h, -⟩
      · exact ⟨ds, hne, tk.decimal, tk.lead, fr⟩
      · cases h
      · cases h
    · rintro ⟨ds, n⟩
      rw [accept ds n]
      simp

/-- The netstring `1:a,` is parsed. -/
theorem parseNetstrAny_exact_one : ∃ P, Usable alone P (written [0x31, 0x3A, 0x61, 0x2C]) ∧
    Exact false 1 (slice (content (written [0x31, 0x3A, 0x61, 0x2C])) 1 4)
      ((parseNetstr 1 4).run (written [0x31, 0x3A, 0x61, 0x2C])).1 := by
  obtain ⟨P, u⟩ := usable_written [0x31, 0x3A, 0x61, 0x2C]
  have hx : slice (content (written [0x31, 0x3A, 0x61, 0x2C])) 1 4 =
      [some 0x31, some 0x3A, some 0x61, some 0x2C] := by decide
  have n : Netstring false (slice (content (written [0x31, 0x3A, 0x61, 0x2C])) 1 4) [0x31] := by
    rw [hx]
    exact ⟨by simp, by simp [Decimal], by simp [LeadOk], [some 0x61], [], rfl, rfl⟩
  refine ⟨P, u, ?_⟩
  exact (parseNetstrAny_exact u (by decide) (Nat.le_refl 1) (by decide) false).mpr
    (n.not_misread (by rw [hx]; decide))

/-- A sign is taken: `+0:,` is parsed as a netstring of no data. -/
theorem parseNetstrAny_signed : (∃ P, Usable alone P (written [0x2B, 0x30, 0x3A, 0x2C])) ∧
    ((parseNetstr 1 4).run (written [0x2B, 0x30, 0x3A, 0x2C])).1 = ⟨4, 4, 0⟩ ∧
    ¬ Exact false 1 (slice (content (written [0x2B, 0x30, 0x3A, 0x2C])) 1 4)
      ((parseNetstr 1 4).run (written [0x2B, 0x30, 0x3A, 0x2C])).1 := by
  have hx : slice (content (written [0x2B, 0x30, 0x3A, 0x2C])) 1 4 =
      [some 0x2B, some 0x30, some 0x3A, some 0x2C] := by decide
  have hr : ((parseNetstr 1 4).run (written [0x2B, 0x30, 0x3A, 0x2C])).1 = ⟨4, 4, 0⟩ := by decide
  refine ⟨usable_written _, hr, fun ex => ?_⟩
  rw [hr, hx] at ex
  obtain ⟨ds, n⟩ := ex.1.mp (by decide)
  refine n.not_misread (by decide) ⟨[0x2B], [0x30], ?_, ⟨[], [], rfl, rfl⟩, .inl (by simp)⟩
  exact ⟨by simp [Decimal], .inr (.inl rfl), .inr (.inl rfl)⟩

end Vstr
