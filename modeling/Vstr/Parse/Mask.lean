import Vstr.Parse.Ip

/-!
# IPv4 addresses and netmasks

What `vstr_parse_ipv4` reads from four numbers, and from the suffix behind them: a number of
bits, or a netmask of four numbers. The scan of a netmask keeps whether a number was not 255;
it accepts the ones and then zeros.
-/

namespace Vstr

open Memory Splice Query

variable {E : Env} {P : Own} {s : St} {pos len v a b c d : Nat} {loc nz : Bool}
  {fl : ParseIpv4Flags} {rest : List (Option UInt8)} {qs : List Nat}

/-! ## Bits of a netmask -/

/-- The bits of a byte, the highest first. -/
def octetBits (q : Nat) : List Bool := (List.range 8).map fun i => q.testBit (7 - i)

/-- The bits of four bytes. -/
def maskBits (quad : List Nat) : List Bool := quad.flatMap octetBits

/-- The number of ones. -/
def oneBits (quad : List Nat) : Nat := (maskBits quad).count true

/-- Bytes whose bits are ones and then zeros. -/
def Contiguous (quad : List Nat) : Prop :=
  (∀ q ∈ quad, q < 256) ∧
    ∃ k, maskBits quad = List.replicate k true ++ List.replicate (8 * quad.length - k) false

/-- What one number makes of the bits so far. -/
def maskStep (scan : Nat) (cidr : Option Nat) (q : Nat) : Option (Option Nat) :=
  match cidr with
  | some bits => if q ≠ 0 then none else some (some bits)
  | none =>
    if q > 255 then none
    else if q ≠ 255 then (netmaskBits q).map fun bits => some (scan * 8 + bits)
    else some none

/-- What numbers make of the bits so far. -/
def maskFold : Nat → Option Nat → List Nat → Option (Option Nat)
  | _, cidr, [] => some cidr
  | scan, cidr, q :: qs => (maskStep scan cidr q).bind fun cidr => maskFold (scan + 1) cidr qs

theorem length_octetBits (q : Nat) : (octetBits q).length = 8 := by simp [octetBits]

/-- Every byte, as the bits of a mask. -/
theorem octetBits_table : ∀ q < 256, (octetBits q = List.replicate 8 true ↔ q = 255) ∧
    (octetBits q = List.replicate 8 false ↔ q = 0) ∧
    ∀ j < 8, octetBits q = List.replicate j true ++ List.replicate (8 - j) false ↔
      q ≠ 255 ∧ netmaskBits q = some j := by
  decide +kernel

/-- The bytes that stand for some ones are the ones that are looked for. -/
theorem octetBits_iff (q : Nat) (hq : q < 256) (j : Nat) (hj : j < 8) :
    octetBits q = List.replicate j true ++ List.replicate (8 - j) false ↔
      q ≠ 255 ∧ netmaskBits q = some j :=
  (octetBits_table q hq).2.2 j hj

theorem octetBits_ones (q : Nat) (hq : q < 256) : octetBits q = List.replicate 8 true ↔ q = 255 :=
  (octetBits_table q hq).1

theorem octetBits_zeros (q : Nat) (hq : q < 256) : octetBits q = List.replicate 8 false ↔ q = 0 :=
  (octetBits_table q hq).2.1

theorem netmaskBits_lt {q j : Nat} (h : netmaskBits q = some j) : j < 8 := by
  unfold netmaskBits at h
  split at h <;> first | (cases h; done) | (cases h; decide)

theorem append_eq_iff {o o' bs bs' : List Bool} (h : o.length = o'.length) :
    o ++ bs = o' ++ bs' ↔ o = o' ∧ bs = bs' := by
  constructor
  · exact fun e => List.append_inj e h
  · rintro ⟨rfl, rfl⟩
    rfl

/-- Ones and then zeros, cut behind the first byte. -/
theorem ones_zeros_split {o bs : List Bool} {n k : Nat} (ho : o.length = 8) :
    o ++ bs = List.replicate k true ++ List.replicate (8 + n - k) false ↔
      (8 ≤ k ∧ o = List.replicate 8 true ∧
        bs = List.replicate (k - 8) true ++ List.replicate (n - (k - 8)) false) ∨
      (k < 8 ∧ o = List.replicate k true ++ List.replicate (8 - k) false ∧
        bs = List.replicate n false) := by
  by_cases hk : 8 ≤ k
  · have e : List.replicate k true ++ List.replicate (8 + n - k) false =
        List.replicate 8 true ++
          (List.replicate (k - 8) true ++ List.replicate (n - (k - 8)) false) := by
      rw [← List.append_assoc, List.replicate_append_replicate, show 8 + (k - 8) = k by omega,
        show 8 + n - k = n - (k - 8) by omega]
    rw [e, append_eq_iff (by rw [ho, List.length_replicate])]
    constructor
    · exact fun h => .inl ⟨hk, h⟩
    · rintro (⟨-, h⟩ | ⟨h, -⟩)
      · exact h
      · omega
  · have e : List.replicate k true ++ List.replicate (8 + n - k) false =
        (List.replicate k true ++ List.replicate (8 - k) false) ++ List.replicate n false := by
      rw [List.append_assoc, List.replicate_append_replicate, show 8 - k + n = 8 + n - k by omega]
    rw [e, append_eq_iff (by
      rw [ho, List.length_append, List.length_replicate, List.length_replicate]
      omega)]
    constructor
    · exact fun h => .inr ⟨by omega, h⟩
    · rintro (⟨h, -⟩ | ⟨-, h⟩)
      · omega
      · exact h

/-- Bytes of `k` ones and then zeros. -/
def OnesThenZeros (k : Nat) (qs : List Nat) : Prop :=
  (∀ q ∈ qs, q < 256) ∧
    maskBits qs = List.replicate k true ++ List.replicate (8 * qs.length - k) false

theorem OnesThenZeros.oneBits {k : Nat} (h : OnesThenZeros k qs) : oneBits qs = k := by
  rw [Vstr.oneBits, h.2, List.count_append, List.count_replicate_self,
    List.count_replicate, if_neg (by decide), Nat.add_zero]

theorem maskBits_zeros (h : ∀ q ∈ qs, q < 256) :
    maskBits qs = List.replicate (8 * qs.length) false ↔ ∀ q ∈ qs, q = 0 := by
  induction qs with
  | nil => simp [maskBits]
  | cons q qs ih =>
    have hq := h q List.mem_cons_self
    rw [maskBits, List.flatMap_cons, List.length_cons, show 8 * (qs.length + 1) =
      8 + 8 * qs.length by omega, List.replicate_add, append_eq_iff (by
      rw [length_octetBits, List.length_replicate]), octetBits_zeros q hq]
    change q = 0 ∧ maskBits qs = _ ↔ _
    rw [ih fun x hx => h x (List.mem_cons_of_mem _ hx), List.forall_mem_cons]

/-- Ones and then zeros, by the first byte. -/
theorem onesThenZeros_cons {k q : Nat} :
    OnesThenZeros k (q :: qs) ↔ (8 ≤ k ∧ q = 255 ∧ OnesThenZeros (k - 8) qs) ∨
      (q < 256 ∧ q ≠ 255 ∧ netmaskBits q = some k ∧ ∀ x ∈ qs, x = 0) := by
  unfold OnesThenZeros
  rw [List.forall_mem_cons, maskBits, List.flatMap_cons, List.length_cons,
    show 8 * (qs.length + 1) = 8 + 8 * qs.length by omega,
    ones_zeros_split (length_octetBits q)]
  change (q < 256 ∧ ∀ x ∈ qs, x < 256) ∧ (_ ∧ _ ∧ maskBits qs = _ ∨ _ ∧ _ ∧ maskBits qs = _) ↔ _
  constructor
  · rintro ⟨⟨hq, hqs⟩, ⟨hk, ho, hb⟩ | ⟨hk, ho, hb⟩⟩
    · exact .inl ⟨hk, (octetBits_ones q hq).mp ho, hqs, hb⟩
    · obtain ⟨h1, h2⟩ := (octetBits_iff q hq k hk).mp ho
      exact .inr ⟨hq, h1, h2, (maskBits_zeros hqs).mp hb⟩
  · rintro (⟨hk, rfl, hqs, hb⟩ | ⟨hq, h1, h2, h0⟩)
    · exact ⟨⟨by decide, hqs⟩, .inl ⟨hk, (octetBits_ones 255 (by decide)).mpr rfl, hb⟩⟩
    · have hk := netmaskBits_lt h2
      have hqs : ∀ x ∈ qs, x < 256 := fun x hx => by
        rw [h0 x hx]
        decide
      exact ⟨⟨hq, hqs⟩, .inr ⟨hk, (octetBits_iff q hq k hk).mpr ⟨h1, h2⟩,
        (maskBits_zeros hqs).mpr h0⟩⟩

/-- Behind a byte that is not 255 only zeros are accepted. -/
theorem maskFold_some (scan bits : Nat) (qs : List Nat) :
    maskFold scan (some bits) qs = if ∀ q ∈ qs, q = 0 then some (some bits) else none := by
  induction qs generalizing scan with
  | nil => rfl
  | cons q qs ih =>
    rw [maskFold, maskStep]
    by_cases hq : q = 0
    · rw [if_neg (not_not.mpr hq), Option.bind_some, ih]
      simp [hq]
    · rw [if_pos hq]
      simp [hq]

/-- The number of bits of a netmask, as the scan has it. -/
def maskLen (scan : Nat) (qs : List Nat) : Option Nat :=
  (maskFold scan none qs).map fun cidr => cidr.getD ((scan + qs.length) * 8)

/-- The scan accepts ones and then zeros, and counts the ones. -/
theorem maskLen_iff (scan n : Nat) (qs : List Nat) :
    maskLen scan qs = some n ↔ scan * 8 ≤ n ∧ OnesThenZeros (n - scan * 8) qs := by
  induction qs generalizing scan with
  | nil =>
    have e : maskLen scan [] = some (scan * 8) := rfl
    rw [e, Option.some_inj]
    unfold OnesThenZeros
    constructor
    · rintro rfl
      exact ⟨Nat.le_refl _, by simp [maskBits]⟩
    · rintro ⟨hle, -, h⟩
      have := congrArg List.length h
      simp [maskBits] at this
      omega
  | cons q qs ih =>
    rw [onesThenZeros_cons]
    by_cases hq : q > 255
    · have e : maskLen scan (q :: qs) = none := by
        rw [maskLen, maskFold, maskStep]
        rw [if_pos hq]
        rfl
      rw [e]
      constructor
      · intro h
        cases h
      · rintro ⟨-, ⟨-, h, -⟩ | ⟨h, -⟩⟩ <;> omega
    · by_cases h255 : q = 255
      · have e : maskLen scan (q :: qs) = maskLen (scan + 1) qs := by
          rw [maskLen, maskFold, maskStep]
          rw [if_neg hq, if_neg (not_not.mpr h255), Option.bind_some, maskLen, List.length_cons,
            show scan + (qs.length + 1) = scan + 1 + qs.length by omega]
        rw [e, ih, show n - (scan + 1) * 8 = n - scan * 8 - 8 by omega]
        constructor
        · exact fun ⟨h1, h2⟩ => ⟨by omega, .inl ⟨by omega, h255, h2⟩⟩
        · rintro ⟨h1, ⟨h2, -, h3⟩ | ⟨-, h2, -⟩⟩
          · exact ⟨by omega, h3⟩
          · exact absurd h255 h2
      · have e : maskLen scan (q :: qs) = (netmaskBits q).bind fun j =>
            if ∀ x ∈ qs, x = 0 then some (scan * 8 + j) else none := by
          rw [maskLen, maskFold, maskStep]
          rw [if_neg hq, if_pos h255]
          cases netmaskBits q with
          | none => rfl
          | some j =>
            rw [Option.map_some, Option.bind_some, maskFold_some, Option.bind_some]
            split <;> rfl
        rw [e]
        cases hj : netmaskBits q with
        | none =>
          simp [h255]
        | some j =>
          rw [Option.bind_some]
          constructor
          · intro h
            split at h
            · rename_i h0
              obtain rfl := Option.some.inj h
              exact ⟨by omega, .inr ⟨by omega, h255, by rw [Nat.add_sub_cancel_left], h0⟩⟩
            · cases h
          · rintro ⟨hle, ⟨-, h, -⟩ | ⟨-, -, h, h0⟩⟩
            · exact absurd h h255
            · obtain rfl := Option.some.inj h
              rw [if_pos h0, show scan * 8 + (n - scan * 8) = n by omega]

/-- A netmask is accepted when it is ones and then zeros. -/
theorem contiguous_iff (quad : List Nat) :
    Contiguous quad ↔ maskLen 0 quad = some (oneBits quad) := by
  rw [maskLen_iff]
  constructor
  · rintro ⟨hq, k, hk⟩
    have h : OnesThenZeros k quad := ⟨hq, hk⟩
    rw [h.oneBits]
    exact ⟨by omega, by simpa using h⟩
  · rintro ⟨-, hq, h⟩
    exact ⟨hq, _, h⟩

/-- Other netmasks are not accepted. -/
theorem maskLen_none {quad : List Nat} (h : ¬ Contiguous quad) : maskLen 0 quad = none := by
  cases e : maskLen 0 quad with
  | none => rfl
  | some n =>
    obtain ⟨-, hq, hk⟩ := (maskLen_iff 0 n quad).mp e
    exact absurd ⟨hq, _, hk⟩ h

/-! ## Reading a netmask -/

/-- A turn of the loop over the numbers of a netmask. -/
theorem parseIpv4NetmaskLoop_succ (nf : ParseNumFlags) (fuel pos len scan : Nat)
    (cidr : Option Nat) : parseIpv4NetmaskLoop nf (fuel + 1) pos len scan cidr =
      if len = 0 then pure (some (len, scan, cidr))
      else parseUint nf pos (min 3 len) >>= fun num =>
        if num.len = 0 then pure (some (len, scan, cidr))
        else match maskStep scan cidr num.num with
          | none => pure none
          | some cidr =>
            if scan + 1 = 4 ∨ len - num.len = 0 then pure (some (len - num.len, scan + 1, cidr))
            else exportChr (pos + num.len) >>= fun x =>
              if x ≠ 0x2E then pure (some (len - num.len, scan + 1, cidr))
              else parseIpv4NetmaskLoop nf fuel (pos + num.len + 1) (len - num.len - 1) (scan + 1)
                cidr := rfl

/-- A number, the last one or with a dot behind it. -/
theorem netmask_step {fuel scan q : Nat} {cidr : Option Nat}
    {res : Option (Nat × Nat × Option Nat)} (hq : q ≤ 999)
    (w : Window E P s pos len ((numText 10 q).map some ++ rest)) (hr : NoDigit loc 10 rest)
    (hnone : maskStep scan cidr q = none → res = none)
    (hlast : ∀ c, maskStep scan cidr q = some c → scan + 1 = 4 ∨ rest = [] →
      res = some (rest.length, scan + 1, c))
    (hnext : ∀ c t, maskStep scan cidr q = some c → scan + 1 ≠ 4 → rest ≠ [] → Reads s t →
      Yields Reads (exportChr (pos + (numText 10 q).length) >>= fun x =>
        if x ≠ 0x2E then pure (some (rest.length, scan + 1, c))
        else parseIpv4NetmaskLoop (ipNumFlags 10 loc nz) fuel
          (pos + (numText 10 q).length + 1) (rest.length - 1) (scan + 1) c) t res) :
    Yields Reads (parseIpv4NetmaskLoop (ipNumFlags 10 loc nz) (fuel + 1) pos len scan cidr) s
      res := by
  have hl := w.length
  rw [List.length_append, List.length_map] at hl
  have hp := List.length_pos_iff.mpr (numText_ne_nil 10 q)
  obtain ⟨num, hnum, hlen, hy⟩ : ∃ r, r.num = q ∧ r.len = (numText 10 q).length ∧
      Yields Reads (parseUint (ipNumFlags 10 loc nz) pos (min 3 len)) s r :=
        ipv4_num (octetRead_numText loc nz hq) w hr
  rw [parseIpv4NetmaskLoop_succ, if_neg (by omega)]
  refine hy.bind fun t r => ?_
  rw [if_neg (by omega), hnum, hlen, show len - (numText 10 q).length = rest.length by omega]
  cases hstep : maskStep scan cidr q with
  | none =>
    rw [hnone hstep]
    exact .pure _ _
  | some c =>
    dsimp only
    by_cases h : scan + 1 = 4 ∨ rest.length = 0
    · rw [if_pos h, hlast c hstep (h.imp_right List.length_eq_zero_iff.mp)]
      exact .pure _ _
    · rw [if_neg h]
      exact hnext c t hstep (fun e => h (.inl e))
        (fun e => h (.inr (List.length_eq_zero_iff.mpr e))) r

/-- The numbers of a netmask. -/
theorem netmask_loop {scan : Nat} {cidr : Option Nat} (hq : ∀ q ∈ qs, q ≤ 999) (hne : qs ≠ [])
    (h4 : scan + qs.length = 4)
    (w : Window E P s pos len ((joinGroups 0x2E (qs.map (numText 10))).map some ++ rest))
    (hr : NoDigit loc 10 rest) :
    Yields Reads (parseIpv4NetmaskLoop (ipNumFlags 10 loc nz) qs.length pos len scan cidr) s
      ((maskFold scan cidr qs).map fun c => (rest.length, 4, c)) := by
  induction qs generalizing s pos len scan cidr with
  | nil => exact absurd rfl hne
  | cons q qs ih =>
    rw [List.length_cons] at h4 ⊢
    have hq0 := hq q List.mem_cons_self
    rw [maskFold]
    by_cases hqs : qs = []
    · subst hqs
      have e : joinGroups 0x2E ([q].map (numText 10)) = numText 10 q := by simp [joinGroups]
      rw [e] at w
      refine netmask_step hq0 w hr ?_ ?_ ?_
      · intro h
        rw [h]
        rfl
      · intro c h _
        rw [h, Option.bind_some, maskFold, Option.map_some]
        rw [List.length_nil] at h4
        rw [show scan + 1 = 4 by omega]
      · intro c t _ h
        rw [List.length_nil] at h4
        omega
    · have e : joinGroups 0x2E ((q :: qs).map (numText 10)) = numText 10 q ++
          0x2E :: joinGroups 0x2E (qs.map (numText 10)) := by
        rw [List.map_cons, joinGroups, joinGroups]
        obtain ⟨q', qs', rfl⟩ := List.exists_cons_of_ne_nil hqs
        rw [List.map_cons, List.intercalate_cons_cons]
        simp
      rw [e] at w
      simp only [List.map_append, List.map_cons, List.append_assoc, List.cons_append] at w
      have hpos := List.length_pos_iff.mpr hqs
      have hl := w.length
      simp only [List.length_append, List.length_map, List.length_cons] at hl
      refine netmask_step hq0 w (stops_cons loc 10 (by decide)).noDigit ?_ ?_ ?_
      · intro h
        rw [h]
        rfl
      · intro c _ h
        rcases h with h | h
        · omega
        · cases h
      · intro c t h _ _ r
        refine (w.reads r).chrBehind.bind fun t' r' => ?_
        rw [if_neg (by decide), h, Option.bind_some]
        have w' := (w.reads (IsTrans.trans _ _ _ r r')).behindSep
        have hlen : (some 0x2E :: ((joinGroups 0x2E (qs.map (numText 10))).map some ++ rest)).length
            - 1 = len - ((numText 10 q).length + 1) := by
          simp only [List.length_append, List.length_map, List.length_cons]
          omega
        rw [hlen]
        exact ih (fun x hx => hq x (List.mem_cons_of_mem _ hx)) hqs (by omega) w'

/-- A netmask of four numbers. -/
theorem parseIpv4Netmask_yields {quad : List Nat} (hq : ∀ q ∈ quad, q ≤ 999) (h4 : quad.length = 4)
    (w : Window E P s pos len ((joinGroups 0x2E (quad.map (numText 10))).map some ++ rest))
    (hr : NoDigit loc 10 rest) :
    Yields Reads (parseIpv4Netmask fl (ipNumFlags 10 loc nz) pos len) s
      (match maskLen 0 quad with
        | none => .error .netmaskOob
        | some n => .ok (n, rest.length)) := by
  have hne : quad ≠ [] := by
    rintro rfl
    cases h4
  have h : Yields Reads (parseIpv4NetmaskLoop (ipNumFlags 10 loc nz) quad.length pos len 0 none)
      s _ := netmask_loop hq hne (by omega) w hr
  rw [h4] at h
  unfold parseIpv4Netmask maskLen
  refine h.bind fun t r => ?_
  cases maskFold 0 none quad with
  | none => exact .pure _ _
  | some c =>
    dsimp only [Option.map_some]
    rw [if_neg (by simp), h4]
    exact .pure _ _

/-! ## The suffix -/

/-- The end of `vstr_parse_ipv4`, behind the numbers. -/
def ipv4Rest (fl : ParseIpv4Flags) (origLen pos len : Nat) (ips : List Nat) :
    StateM St (Except ParseIpv4Err ParsedIpv4) := do
  let nf := ipNumFlags 10 fl.loc (!fl.zeros)
  let slash ← if len ≠ 0 then pure (decide ((← exportChr pos) = 0x2F)) else pure false
  let rest ← if slash ∧ fl.cidr then parseIpv4Cidr fl nf (pos + 1) (len - 1)
    else if slash ∧ fl.netmask then parseIpv4Netmask fl nf (pos + 1) (len - 1)
    else pure (.ok (32, len))
  match rest with
  | .error err => return .error err
  | .ok (cidr, len) => return .ok ⟨ips, cidr, origLen - len, len ≠ 0 ∧ fl.only⟩

/-- Four numbers that were read, for what is behind them. -/
theorem parseIpv4_read {res : Except ParseIpv4Err ParsedIpv4} {p l : Nat}
    (h : Yields Reads (parseIpv4Loop (ipNumFlags 10 fl.loc (!fl.zeros)) 4 pos len []) s
      (some (p, l, [a, b, c, d])))
    (k : ∀ t, Reads s t → Yields Reads (ipv4Rest fl len p l [a, b, c, d]) t res) :
    Yields Reads (parseIpv4 fl pos len) s res := by
  unfold parseIpv4
  refine h.bind fun t r => ?_
  dsimp only
  rw [if_neg (by simp)]
  exact k t r

/-- An address of four numbers, for what is behind it. -/
theorem parseIpv4_four {res : Except ParseIpv4Err ParsedIpv4}
    (w : Window E P s pos len ((ipv4Text a b c d).map some ++ rest))
    (ha : a ≤ 255) (hb : b ≤ 255) (hc : c ≤ 255) (hd : d ≤ 255) (hr : NoDigit fl.loc 10 rest)
    (k : ∀ t, Reads s t → Yields Reads
      (ipv4Rest fl len (pos + (ipv4Text a b c d).length) rest.length [a, b, c, d]) t res) :
    Yields Reads (parseIpv4 fl pos len) s res :=
  parseIpv4_read (ipv4_four w ha hb hc hd hr) k

/-- Nothing behind the address. -/
theorem ipv4Rest_end (fl : ParseIpv4Flags) (origLen pos : Nat) (ips : List Nat) (s : St) :
    Yields Reads (ipv4Rest fl origLen pos 0 ips) s (.ok ⟨ips, 32, origLen, false⟩) := by
  unfold ipv4Rest
  rw [if_neg (by decide)]
  refine (Yields.pure s false).bind fun t r => ?_
  dsimp only
  rw [if_neg (by simp), if_neg (by simp)]
  exact (Yields.pure t _).bind fun u q => .pure _ _

/-- A number of bits behind the address, which an `unsigned int` holds in part. -/
theorem ipv4Rest_cidr (n origLen : Nat) (ips : List Nat) (hfl : fl.cidr = true)
    (w : Window E P s pos len ((0x2F :: numText 10 n).map some)) :
    Yields Reads (ipv4Rest fl origLen pos len ips) s
      (if n % 2 ^ 32 ≤ 32 then .ok ⟨ips, n % 2 ^ 32, origLen, false⟩ else .error .cidrOob) := by
  have hl := w.length
  rw [List.length_map, List.length_cons] at hl
  rw [List.map_cons] at w
  have hp := List.length_pos_iff.mpr (numText_ne_nil 10 n)
  have hchr : Yields Reads (exportChr pos) s 0x2F := w.chr (k := 0) (by omega)
  unfold ipv4Rest
  rw [if_pos (by omega)]
  refine hchr.bind fun t r => ?_
  refine (Yields.pure t true).bind fun t' r' => ?_
  dsimp only
  rw [if_pos ⟨rfl, hfl⟩]
  have w1 : Window E P t' (pos + 1) (len - 1) ((numText 10 n).map some ++ []) := by
    rw [List.append_nil]
    exact (w.behind [some 0x2F]).reads (IsTrans.trans _ _ _ r r')
  have hnum := parseNumUfunc_yields w1 32 (ipNumFlags 10 fl.loc (!fl.zeros))
  obtain ⟨hv, hlen⟩ := ufuncOf_numText_mod (b := 10) (.inl rfl) fl.loc (!fl.zeros) (fun _ => rfl)
    n (stops_nil fl.loc 10).noDigit (fun h => by cases h) (pos + 1)
  have hcidr : Yields Reads (parseIpv4Cidr fl (ipNumFlags 10 fl.loc (!fl.zeros)) (pos + 1)
      (len - 1)) t' (if n % 2 ^ 32 ≤ 32 then .ok (n % 2 ^ 32, 0) else .error .cidrOob) := by
    unfold parseIpv4Cidr
    rw [if_pos (by omega)]
    refine hnum.bind fun u q => ?_
    dsimp only
    rw [hv, hlen, if_pos (by omega), if_neg (by omega)]
    refine (Yields.pure u false).bind fun u' q' => ?_
    rw [if_neg (by decide), show len - 1 - (numText 10 n).length = 0 by omega]
    split <;> exact .pure _ _
  by_cases hr : n % 2 ^ 32 ≤ 32
  · rw [if_pos hr] at hcidr ⊢
    refine hcidr.bind fun u q => ?_
    dsimp only
    rw [Nat.sub_zero]
    exact .pure _ _
  · rw [if_neg hr] at hcidr ⊢
    exact hcidr.bind fun u q => .pure _ _

/-- A netmask behind the address. -/
theorem ipv4Rest_netmask {quad : List Nat} (origLen : Nat) (ips : List Nat)
    (hc : fl.cidr = false) (hfl : fl.netmask = true) (hq : ∀ q ∈ quad, q ≤ 999)
    (h4 : quad.length = 4) (hr : NoDigit fl.loc 10 rest)
    (w : Window E P s pos len
      (some 0x2F :: ((joinGroups 0x2E (quad.map (numText 10))).map some ++ rest))) :
    Yields Reads (ipv4Rest fl origLen pos len ips) s
      (match maskLen 0 quad with
        | none => .error .netmaskOob
        | some n => .ok ⟨ips, n, origLen - rest.length, rest.length ≠ 0 ∧ fl.only⟩) := by
  have hl := w.length
  rw [List.length_cons] at hl
  have hchr : Yields Reads (exportChr pos) s 0x2F := w.chr (k := 0) (by omega)
  unfold ipv4Rest
  rw [if_pos (by omega)]
  refine hchr.bind fun t r => ?_
  refine (Yields.pure t true).bind fun t' r' => ?_
  dsimp only
  rw [if_neg (by simp [hc]), if_pos ⟨rfl, hfl⟩]
  have w1 := (w.behind [some 0x2F]).reads (IsTrans.trans _ _ _ r r')
  refine (parseIpv4Netmask_yields hq h4 w1 hr).bind fun u q => ?_
  cases maskLen 0 quad with
  | none => exact .pure _ _
  | some n => exact .pure _ _

/-! ## Reading back -/

/-- Four numbers that are not above a bound. -/
structure Quad (max : Nat) where
  /-- The numbers. -/
  val : List Nat
  /-- There are four. -/
  length : val.length = 4
  /-- They are not too large. -/
  le : ∀ x ∈ val, x ≤ max

/-- The bytes do not go on with a digit. -/
def EndsNumber (rest : List (Option UInt8)) : Prop :=
  ∀ c, rest.head? = some (some c) → ¬ (0x30 ≤ c ∧ c ≤ 0x39)

theorem EndsNumber.noDigit (h : EndsNumber rest) (loc : Bool) : NoDigit loc 10 rest := by
  intro x xs e
  subst e
  cases x with
  | none => exact asciiDigit_of_lt loc 10 (by decide)
  | some c =>
    have hc := h c rfl
    rw [UInt8.le_iff_toNat_le, UInt8.le_iff_toNat_le, show (0x30 : UInt8).toNat = 0x30 from rfl,
      show (0x39 : UInt8).toNat = 0x39 from rfl] at hc
    rw [Option.getD_some, asciiDigit_eq (by decide), asciiDigit_ten, if_neg hc]

/-- The text of an address and a netmask. -/
def maskedText (addr mask : List Nat) : List UInt8 := fmtIpv4 addr none ++ 0x2F :: fmtIpv4 mask none

theorem Quad.text {max : Nat} (q : Quad max) (cidr : Option Nat) :
    ∃ a b c d, q.val = [a, b, c, d] ∧
      fmtIpv4 q.val cidr = ipv4Text a b c d ++ suffixText cidr := by
  obtain ⟨a, b, c, d, e⟩ := List.length_eq_four.mp q.length
  exact ⟨a, b, c, d, e, by rw [e]; rfl⟩

/-- The text of an address is read back, with its suffix; and behind an address a netmask of
ones and then zeros is read as the number of its ones, and no other is accepted. -/
theorem ipv4_masks (addr : Quad 255) :
    (∀ (cidr : Option (Fin 33)) (E : Env) (P : Own) (s : St) (pos len : Nat)
        (fl : ParseIpv4Flags), (cidr.isSome = true → fl.cidr = true) →
      Window E P s pos len ((fmtIpv4 addr.val (cidr.map Fin.val)).map some) →
      ((parseIpv4 fl pos len).run s).1 =
        .ok ⟨addr.val, (cidr.map Fin.val).getD 32, len, false⟩) ∧
    ∀ (mask : Quad 999) (rest : List (Option UInt8)) (E : Env) (P : Own) (s : St) (pos len : Nat)
        (fl : ParseIpv4Flags), EndsNumber rest → fl.cidr = false → fl.netmask = true →
        Window E P s pos len ((maskedText addr.val mask.val).map some ++ rest) →
      (Contiguous mask.val → ((parseIpv4 fl pos len).run s).1 = .ok ⟨addr.val, oneBits mask.val,
        (maskedText addr.val mask.val).length, rest ≠ [] ∧ fl.only⟩) ∧
      (¬ Contiguous mask.val → ((parseIpv4 fl pos len).run s).1 = .error .netmaskOob) := by
  have hle := addr.le
  obtain ⟨a, b, c, d, e, -⟩ := addr.text none
  have ht : ∀ cidr, fmtIpv4 addr.val cidr = ipv4Text a b c d ++ suffixText cidr := by
    intro cidr
    rw [e]
    rfl
  rw [e] at hle
  have ha := hle a (by simp)
  have hb := hle b (by simp)
  have hc := hle c (by simp)
  have hd := hle d (by simp)
  refine ⟨fun cidr E P s pos len fl hfl w => ?_, fun mask rest E P s pos len fl hend h0 hm w => ?_⟩
  · rw [ht, List.map_append] at w
    have hl := w.length
    have w' := w.behind
    have hr := (stops_suffix fl.loc 10 (cidr.map Fin.val)).noDigit
    have hres : Yields Reads (parseIpv4 fl pos len) s
        (.ok ⟨[a, b, c, d], (cidr.map Fin.val).getD 32, len, false⟩) := by
      refine parseIpv4_four w ha hb hc hd hr fun t r => ?_
      cases cidr with
      | none => exact ipv4Rest_end fl len _ _ t
      | some n =>
        rw [List.length_map] at w' ⊢
        have hlen : len - (ipv4Text a b c d).length =
            (suffixText ((some n).map Fin.val)).length := by
          rw [← hl, List.length_append, List.length_map, List.length_map, Nat.add_sub_cancel_left]
        rw [hlen] at w'
        have h := ipv4Rest_cidr n.val len [a, b, c, d] (hfl rfl) (w'.reads r)
        rwa [Nat.mod_eq_of_lt (by omega), if_pos (by omega)] at h
    rw [e]
    exact hres.1
  · have htext : maskedText addr.val mask.val =
        ipv4Text a b c d ++ 0x2F :: joinGroups 0x2E (mask.val.map (numText 10)) := by
      obtain ⟨a', b', c', d', e', -⟩ := mask.text none
      rw [maskedText, ht, fmtIpv4, e']
      simp [suffixText]
    have hl := w.length
    rw [htext] at w hl ⊢
    rw [List.map_append, List.map_cons, List.append_assoc, List.cons_append] at w
    have w' := w.behind
    simp only [List.length_append, List.length_map, List.length_cons] at hl
    have hres : Yields Reads (parseIpv4 fl pos len) s (match maskLen 0 mask.val with
        | none => .error .netmaskOob
        | some n => .ok ⟨[a, b, c, d], n, len - rest.length, rest.length ≠ 0 ∧ fl.only⟩) := by
      refine parseIpv4_four w ha hb hc hd (stops_cons fl.loc 10 (by decide)).noDigit fun t r => ?_
      have hlen : len - ((ipv4Text a b c d).map some).length = (some 0x2F ::
          ((joinGroups 0x2E (mask.val.map (numText 10))).map some ++ rest)).length := by
        simp only [List.length_append, List.length_map, List.length_cons]
        omega
      rw [hlen, List.length_map] at w'
      exact ipv4Rest_netmask len _ h0 hm mask.le mask.length (hend.noDigit fl.loc) (w'.reads r)
    refine ⟨fun hcon => ?_, fun hcon => ?_⟩
    · rw [(contiguous_iff _).mp hcon] at hres
      rw [hres.1, e]
      dsimp only
      congr 2
      · simp only [List.length_append, List.length_cons]
        omega
      · simp [List.length_eq_zero_iff]
    · rw [maskLen_none hcon] at hres
      exact hres.1

/-- The flags of an address with a number of bits, or with a netmask. -/
def maskFlags (cidr netmask : Bool) : ParseIpv4Flags where
  loc := false
  zeros := false
  full := true
  cidr := cidr
  cidrFull := false
  netmask := netmask
  netmaskFull := true
  only := true

/-- The address `192.168.0.1`. -/
def privateHost : Quad 255 := ⟨[192, 168, 0, 1], rfl, by decide⟩

/-- The masks `/24` and `/255.255.255.0` with a blank behind it, and `/255.0.255.0`. -/
theorem ipv4_masks_private :
    ((parseIpv4 (maskFlags true false) 1 14).run
      (written (fmtIpv4 [192, 168, 0, 1] (some 24)))).1 = .ok ⟨[192, 168, 0, 1], 24, 14, false⟩ ∧
    ((parseIpv4 (maskFlags false true) 1 26).run
      (written (maskedText [192, 168, 0, 1] [255, 255, 255, 0] ++ [0x20]))).1 =
        .ok ⟨[192, 168, 0, 1], 24, 25, true⟩ ∧
    ((parseIpv4 (maskFlags false true) 1 23).run
      (written (maskedText [192, 168, 0, 1] [255, 0, 255, 0]))).1 = .error .netmaskOob := by
  obtain ⟨hcidr, hmask⟩ := ipv4_masks privateHost
  refine ⟨?_, ?_, ?_⟩
  · obtain ⟨P, w⟩ := window_text (fmtIpv4 [192, 168, 0, 1] (some 24))
    exact hcidr (some 24) alone P _ 1 14 (maskFlags true false) (fun _ => rfl) w
  · obtain ⟨P, w⟩ := window_text (maskedText [192, 168, 0, 1] [255, 255, 255, 0] ++ [0x20])
    rw [List.map_append] at w
    have hend : EndsNumber ([0x20].map some) := by
      intro c hc
      obtain rfl := Option.some.inj (Option.some.inj hc)
      decide
    exact (hmask ⟨[255, 255, 255, 0], rfl, by decide⟩ _ alone P _ 1 26 (maskFlags false true)
      hend rfl rfl w).1 ((contiguous_iff _).mpr (by decide))
  · obtain ⟨P, w⟩ := window_text (maskedText [192, 168, 0, 1] [255, 0, 255, 0])
    rw [← List.append_nil (List.map some _)] at w
    have hend : EndsNumber [] := fun c hc => by cases hc
    exact (hmask ⟨[255, 0, 255, 0], rfl, by decide⟩ [] alone P _ 1 23 (maskFlags false true)
      hend rfl rfl w).2 fun h => absurd ((contiguous_iff _).mp h) (by decide)

end Vstr
