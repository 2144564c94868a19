import Vstr.Parse.Digits
import Vstr.Parse.Split

/-!
# Reading an address

What the loop of `vstr_parse_ipv6` makes of the fields of an address, and what the calls
behind it make of the end: a group, an IPv4 address, or a null field, each with or without
a suffix.
-/

namespace Vstr

open Memory Splice Query

variable {E : Env} {P : Own} {s : St} {pos len num off nl : Nat} {loc : Bool}
  {done : List Nat} {ips : List Nat}

/-! ## Hexadecimal fields -/

/-- A field, the number that is read from it, and the length of the number. -/
structure HexRead where
  /-- The characters. -/
  text : List UInt8
  /-- The number. -/
  val : Nat
  /-- The characters that were read. -/
  len : Nat

/-- The parser of groups reads the field so. -/
structure HexRead.Ok (loc : Bool) (f : HexRead) : Prop where
  /-- The number. -/
  num : ∀ pos, (ufuncOf 32 (ipNumFlags 16 loc false) pos (f.text.map some)).num = f.val
  /-- The length. -/
  len : ∀ pos, (ufuncOf 32 (ipNumFlags 16 loc false) pos (f.text.map some)).len = f.len
  /-- Something was read. -/
  one_le : 1 ≤ f.len
  /-- Not too much was read. -/
  le_four : f.len ≤ 4
  /-- It is a group. -/
  le_max : f.val ≤ 0xFFFF

/-- The text of an empty field has no number. -/
theorem HexRead.Ok.text_ne_nil {f : HexRead} (h : f.Ok loc) : f.text ≠ [] := by
  intro e
  have hl := h.len 0
  rw [e] at hl
  have := h.one_le
  change 0 = f.len at hl
  omega

/-- The sections hold these texts. -/
def Holds (E : Env) (P : Own) (s : St) : List Sect → List (List UInt8) → Prop :=
  List.Forall₂ fun x g => Window E P s x.pos x.len (g.map some)

theorem Holds.reads {t : St} {xs : List Sect} {gs : List (List UInt8)} (h : Holds E P s xs gs)
    (r : Reads s t) : Holds E P t xs gs := h.imp fun _ _ w => w.reads r

/-- The loop with some groups read. -/
def Ipv6Loop.having (off nl : Nat) (done : List Nat) : Ipv6Loop :=
  ⟨done.length, off, nl, done ++ List.replicate (8 - done.length) 0⟩

theorem Ipv6Loop.having_set {v : Nat} (h : done.length < 8) :
    (done ++ List.replicate (8 - done.length) 0).set done.length v =
      (done ++ [v]) ++ List.replicate (8 - (done ++ [v]).length) 0 := by
  obtain ⟨k, hk⟩ : ∃ k, 8 - done.length = k + 1 := ⟨7 - done.length, by omega⟩
  rw [hk, List.set_append_right _ _ (Nat.le_refl _), Nat.sub_self, List.replicate_succ,
    List.set_cons_zero, List.append_assoc, List.singleton_append, List.length_append,
    List.length_singleton, show 8 - (done.length + 1) = k by omega]

/-- A group. -/
theorem loop_field {x : Sect} {xs : List Sect} {f : HexRead} {v : Except ParseIpv6Err Ipv6Loop}
    (w : Window E P s x.pos x.len (f.text.map some)) (hf : f.Ok loc) (h8 : done.length < 8)
    (k : ∀ t, Reads s t → Yields Reads
      (parseIpv6Loop (ipNumFlags 16 loc false) num xs (.having off f.len (done ++ [f.val]))) t v) :
    Yields Reads (parseIpv6Loop (ipNumFlags 16 loc false) num (x :: xs) (.having off nl done))
      s v := by
  have hl := w.length
  have hne := List.length_pos_iff.mpr hf.text_ne_nil
  rw [List.length_map] at hl
  have h1 := hf.one_le
  have h4 := hf.le_four
  have hm := hf.le_max
  rw [parseIpv6Loop, if_neg (by omega)]
  refine (parseNumUfunc_yields w 32 _).bind fun t r => ?_
  rw [hf.num, hf.len, if_neg (by omega), if_neg (by omega)]
  have e : Ipv6Loop.mk ((Ipv6Loop.having off nl done).scan + 1)
      (Ipv6Loop.having off nl done).offNull f.len
      ((Ipv6Loop.having off nl done).ips.set ((Ipv6Loop.having off nl done).scan + 1 - 1) f.val) =
      .having off f.len (done ++ [f.val]) := by
    unfold Ipv6Loop.having
    dsimp only
    rw [Nat.add_sub_cancel, Ipv6Loop.having_set h8, List.length_append, List.length_singleton]
  rw [e]
  exact k t r

/-- The length of the last number. -/
def lastLen : Nat → List HexRead → Nat
  | nl, [] => nl
  | _, f :: fs => lastLen f.len fs

@[simp] theorem lastLen_append (nl : Nat) (fs : List HexRead) (f : HexRead) :
    lastLen nl (fs ++ [f]) = f.len := by
  induction fs generalizing nl with
  | nil => rfl
  | cons f' fs ih => exact ih f'.len

/-- Groups. -/
theorem loop_fields {xs ys : List Sect} {fs : List HexRead} {v : Except ParseIpv6Err Ipv6Loop}
    (hold : Holds E P s xs (fs.map HexRead.text)) (hfs : ∀ f ∈ fs, f.Ok loc)
    (h8 : done.length + fs.length ≤ 8)
    (k : ∀ t, Reads s t → Yields Reads (parseIpv6Loop (ipNumFlags 16 loc false) num ys
      (.having off (lastLen nl fs) (done ++ fs.map HexRead.val))) t v) :
    Yields Reads (parseIpv6Loop (ipNumFlags 16 loc false) num (xs ++ ys) (.having off nl done))
      s v := by
  induction fs generalizing s xs nl done with
  | nil =>
    cases hold
    have h := k s (Std.Refl.refl s)
    rwa [List.map_nil, List.append_nil] at h
  | cons f fs ih =>
    rw [List.length_cons] at h8
    cases hold with
    | cons w hold =>
      refine loop_field w (hfs f List.mem_cons_self) (by omega) fun t r => ?_
      refine ih (Holds.reads hold r) (fun f' hf => hfs f' (List.mem_cons_of_mem _ hf))
        (by rw [List.length_append, List.length_singleton]; omega) fun t' r' => ?_
      have h := k t' (IsTrans.trans _ _ _ r r')
      rw [List.map_cons] at h
      rwa [List.append_assoc, List.singleton_append]

/-- A null field. -/
theorem loop_null {xs : List Sect} {p : Nat} {v : Except ParseIpv6Err Ipv6Loop}
    (h8 : done.length < 8)
    (k : Yields Reads (parseIpv6Loop (ipNumFlags 16 loc false) num xs
      (.having (done.length + 1) nl (done ++ [0]))) s v) :
    Yields Reads (parseIpv6Loop (ipNumFlags 16 loc false) num (⟨p, 0⟩ :: xs) (.having 0 nl done))
      s v := by
  rw [parseIpv6Loop]
  dsimp only
  rw [if_pos rfl, if_neg (by simp [Ipv6Loop.having])]
  have e : Ipv6Loop.mk ((Ipv6Loop.having 0 nl done).scan + 1)
      ((Ipv6Loop.having 0 nl done).scan + 1) (Ipv6Loop.having 0 nl done).numLen
      ((Ipv6Loop.having 0 nl done).ips.set ((Ipv6Loop.having 0 nl done).scan + 1 - 1) 0) =
      .having (done.length + 1) nl (done ++ [0]) := by
    unfold Ipv6Loop.having
    dsimp only
    rw [Nat.add_sub_cancel, Ipv6Loop.having_set h8, List.length_append, List.length_singleton]
  rw [e]
  exact k

/-! ## The end of an address -/

/-- The text of a suffix. -/
def suffixText (cidr : Option Nat) : List UInt8 := cidr.elim [] fun c => 0x2F :: numText 10 c

theorem stops_suffix (loc : Bool) (b : Nat) (cidr : Option Nat) :
    Stops loc b ((suffixText cidr).map some) := by
  cases cidr with
  | none => exact stops_nil loc b
  | some c => exact stops_cons loc b (by decide)

/-- The characters of a suffix. -/
theorem mem_suffixText {cidr : Option Nat} {c : UInt8} (hc : c ∈ suffixText cidr) :
    c = 0x2F ∨ ∃ d < 16, c = digitChr d := by
  cases cidr with
  | none => cases hc
  | some n =>
    rcases List.mem_cons.mp hc with h | h
    · exact .inl h
    · obtain ⟨d, hd, e⟩ := mem_numText (.inl rfl) h
      exact .inr ⟨d, by omega, e⟩

/-- A suffix is no IPv4 address. -/
theorem suffixText_dot (cidr : Option Nat) : some 0x2E ∉ (suffixText cidr).map some := by
  intro h
  obtain ⟨c, hc, e⟩ := List.mem_map.mp h
  obtain rfl := Option.some.inj e
  rcases mem_suffixText hc with h | ⟨d, hd, h⟩
  · cases h
  · exact (digitChr_eq hd).2.2.2.2 h.symm

/-- The end of `vstr_parse_ipv6`, at a number of bits, which an `unsigned int` holds in
part. -/
theorem rest_number {p l : Nat} (n : Nat) (fl : ParseIpv6Flags) (origLen : Nat) (ips : List Nat)
    (w : Window E P s p l ((0x2F :: numText 10 n).map some)) (hfl : fl.cidr = true) :
    Yields Reads (parseIpv6Rest fl origLen p l ips) s
      (if n % 2 ^ 32 ≤ 128 then .ok ⟨ips, n % 2 ^ 32, origLen, false⟩ else .error .cidrOob) := by
  have hl := w.length
  have hsub : sizeSub origLen 0 = origLen := if_pos (Nat.zero_le _)
  rw [List.length_map, List.length_cons] at hl
  rw [List.map_cons] at w
  have hchr : Yields Reads (exportChr p) s 0x2F := w.chr (k := 0) (by omega)
  unfold parseIpv6Rest
  rw [if_pos (by omega)]
  refine hchr.bind fun t r => ?_
  refine (Yields.pure t true).bind fun t' r' => ?_
  dsimp only
  rw [if_pos ⟨rfl, hfl⟩]
  have w1 : Window E P t' (p + 1) (l - 1) ((numText 10 n).map some ++ []) := by
    rw [List.append_nil]
    exact (w.behind [some 0x2F]).reads (IsTrans.trans _ _ _ r r')
  have hnum := parseNumUfunc_yields w1 32 (ipNumFlags 10 fl.loc false)
  obtain ⟨hn, hlen⟩ := ufuncOf_numText_mod (b := 10) (.inl rfl) fl.loc false (fun h => by cases h)
    n (stops_nil fl.loc 10).noDigit (fun h => by cases h) (p + 1)
  have hpos := List.length_pos_iff.mpr (numText_ne_nil 10 n)
  have hcidr : Yields Reads (parseIpv6Cidr fl (p + 1) (l - 1)) t'
      (if n % 2 ^ 32 ≤ 128 then .ok (n % 2 ^ 32, 0) else .error .cidrOob) := by
    unfold parseIpv6Cidr
    rw [if_pos (by omega)]
    refine hnum.bind fun t'' r'' => ?_
    have e : sizeSub (l - 1) (numText 10 n).length = 0 := by
      rw [sizeSub, if_pos (by omega)]
      omega
    dsimp only
    rw [hn, hlen, if_pos (by omega), e]
    split <;> exact .pure _ _
  by_cases hr : n % 2 ^ 32 ≤ 128
  · rw [if_pos hr] at hcidr ⊢
    refine hcidr.bind fun t'' r'' => ?_
    dsimp only
    rw [hsub]
    exact .pure _ _
  · rw [if_neg hr] at hcidr ⊢
    exact hcidr.bind fun t'' r'' => .pure _ _

/-- The end of `vstr_parse_ipv6`, at a suffix or at the end. -/
theorem rest_suffix {p l : Nat} (cidr : Option Nat) (fl : ParseIpv6Flags) (origLen : Nat)
    (ips : List Nat) (w : Window E P s p l ((suffixText cidr).map some))
    (hfl : cidr.isSome = true → fl.cidr = true) (hc : ∀ c ∈ cidr, c ≤ 128) :
    Yields Reads (parseIpv6Rest fl origLen p l ips) s
      (.ok ⟨ips, cidr.getD 128, origLen, false⟩) := by
  cases cidr with
  | none =>
    have hl := w.length
    have hsub : sizeSub origLen 0 = origLen := if_pos (Nat.zero_le _)
    obtain rfl : 0 = l := hl
    unfold parseIpv6Rest
    rw [if_neg (by decide)]
    refine (Yields.pure s false).bind fun t r => ?_
    dsimp only
    rw [if_neg (by simp)]
    refine (Yields.pure t _).bind fun t' r' => ?_
    dsimp only
    rw [hsub]
    exact .pure _ _
  | some c =>
    have hc := hc c rfl
    have h := rest_number c fl origLen ips w (hfl rfl)
    rwa [Nat.mod_eq_of_lt (by omega), if_pos hc] at h

/-- The end of `vstr_parse_ipv6`, at something else. -/
theorem rest_other {p l m : Nat} {c : UInt8} {xs : List (Option UInt8)} (fl : ParseIpv6Flags)
    (origLen : Nat) (ips : List Nat) (w : Window E P s p m (some c :: xs)) (hl : l ≠ 0)
    (hc : c ≠ 0x2F) :
    Yields Reads (parseIpv6Rest fl origLen p l ips) s
      (.ok ⟨ips, 128, sizeSub origLen l, decide (l ≠ 0 ∧ fl.only = true)⟩) := by
  have hm : 0 < m := by
    have := w.length
    rw [List.length_cons] at this
    omega
  have hchr : Yields Reads (exportChr p) s c := w.chr (k := 0) hm
  unfold parseIpv6Rest
  rw [if_pos hl]
  refine hchr.bind fun t r => ?_
  refine (Yields.pure t _).bind fun t' r' => ?_
  dsimp only
  rw [if_neg (by simp [hc])]
  exact (Yields.pure t' _).bind fun u q => .pure _ _

/-! ## IPv4 addresses -/

variable {rest : List (Option UInt8)} {v : Nat} {nz : Bool} {g g' : List UInt8}

/-- The parser of numbers reads a number of an IPv4 address so. -/
structure OctetRead (loc nz : Bool) (g : List UInt8) (v : Nat) : Prop where
  /-- There is a digit. -/
  ne_nil : g ≠ []
  /-- There are at most three. -/
  length_le : g.length ≤ 3
  /-- There is nothing else. -/
  digit : ∀ c ∈ g, ∃ d < 10, c = digitChr d
  /-- The number, and its length. -/
  read : ∀ {rest : List (Option UInt8)}, NoDigit loc 10 rest → ∀ pos,
    (ufuncOf 32 (ipNumFlags 10 loc nz) pos (g.map some ++ rest)).num = v ∧
      (ufuncOf 32 (ipNumFlags 10 loc nz) pos (g.map some ++ rest)).len = g.length

/-- A number without leading zeros. -/
theorem octetRead_numText (loc nz : Bool) (hv : v ≤ 999) :
    OctetRead loc nz (numText 10 v) v where
  ne_nil := numText_ne_nil 10 v
  length_le := length_numText_le (.inl rfl) (by decide) (show v < 10 ^ 3 by omega)
  digit _ hc := mem_numText (.inl rfl) hc
  read hr pos := ufuncOf_decimal loc nz (by omega) hr pos

/-- A number of an IPv4 address. -/
theorem ipv4_num (ho : OctetRead loc nz g v) (w : Window E P s pos len (g.map some ++ rest))
    (hr : NoDigit loc 10 rest) : ∃ r, r.num = v ∧ r.len = g.length ∧
      Yields Reads (parseUint (ipNumFlags 10 loc nz) pos (min 3 len)) s r := by
  have hl := w.length
  rw [List.length_append, List.length_map] at hl
  have h3 := ho.length_le
  have w3 := w.take (show min 3 len ≤ len by omega)
  rw [List.take_append, List.take_of_length_le (by rw [List.length_map]; omega)] at w3
  have h := ho.read (hr.take (min 3 len - (g.map some).length)) pos
  exact ⟨_, h.1, h.2, parseNumUfunc_yields w3 32 _⟩

/-- The byte behind a first part. -/
theorem Window.chrBehind {as : List UInt8} {c : UInt8}
    (w : Window E P s pos len (as.map some ++ some c :: rest)) :
    Yields Reads (exportChr (pos + as.length)) s c := by
  have hl := w.length
  rw [List.length_append, List.length_map, List.length_cons] at hl
  have h := w.chr (show as.length < len by omega)
  have e : byteAt (as.map some ++ some c :: rest) as.length = c := by
    rw [byteAt, List.getElem?_append_right (by simp)]
    simp
  rwa [e] at h

/-- The slice behind a first part and a separator. -/
theorem Window.behindSep {as : List UInt8} {c : UInt8}
    (w : Window E P s pos len (as.map some ++ some c :: rest)) :
    Window E P s (pos + (as.length + 1)) (len - (as.length + 1)) rest := by
  rw [← List.singleton_append, ← List.append_assoc] at w
  have h := w.behind (as.map some ++ [some c])
  rwa [List.length_append, List.length_map, List.length_singleton] at h

/-- A number with a dot behind it. -/
theorem ipv4_step {v' fuel : Nat} {res : Option (Nat × Nat × List Nat)}
    (ho : OctetRead loc nz g v) (ho' : OctetRead loc nz g' v')
    (w : Window E P s pos len (g.map some ++ some 0x2E :: (g'.map some ++ rest)))
    (hv : v ≤ 255) (h4 : ips.length < 3)
    (k : ∀ t, Reads s t → Window E P t (pos + (g.length + 1)) (len - (g.length + 1))
        (g'.map some ++ rest) →
      Yields Reads (parseIpv4Loop (ipNumFlags 10 loc nz) fuel (pos + (g.length + 1))
        (len - (g.length + 1)) (ips ++ [v])) t res) :
    Yields Reads (parseIpv4Loop (ipNumFlags 10 loc nz) (fuel + 1) pos len ips) s res := by
  have hl := w.length
  simp only [List.length_append, List.length_map, List.length_cons] at hl
  have hp := List.length_pos_iff.mpr ho.ne_nil
  have hp' := List.length_pos_iff.mpr ho'.ne_nil
  obtain ⟨num, hnum, hlen, hy⟩ := ipv4_num ho w (stops_cons loc 10 (by decide)).noDigit
  have hdot : ∀ t, Reads s t → Yields Reads (exportChr (pos + num.len)) t 0x2E := by
    intro t r
    rw [hlen]
    exact (w.reads r).chrBehind
  have hnext : ∀ t, Reads s t → ∃ c, c ≠ 0x2F ∧
      Yields Reads (exportChr (pos + num.len + 1)) t c := by
    intro t r
    obtain ⟨c, cs, e⟩ := List.exists_cons_of_ne_nil ho'.ne_nil
    obtain ⟨d, hd, rfl⟩ := ho'.digit c (by simp [e])
    refine ⟨digitChr d, (digitChr_eq (by omega)).2.2.2.1, ?_⟩
    have w' := w.reads r
    rw [e, List.map_cons, List.cons_append, ← List.singleton_append, ← List.append_assoc,
      show g.map some ++ [some 0x2E] = (g ++ [0x2E]).map some by simp] at w'
    have h := w'.chrBehind
    rwa [List.length_append, List.length_singleton, ← hlen, ← Nat.add_assoc] at h
  rw [parseIpv4Loop, if_neg (by omega)]
  refine hy.bind fun t r => ?_
  dsimp only
  rw [hnum, if_neg (by omega), if_neg (by omega), if_neg (by
    rw [List.length_append, List.length_singleton]
    omega)]
  refine (hdot t r).bind fun t' r' => ?_
  have r' := IsTrans.trans _ _ _ r r'
  rw [if_neg (by decide)]
  refine (hdot t' r').bind fun t'' r'' => ?_
  have r'' := IsTrans.trans _ _ _ r' r''
  rw [if_neg (by decide), if_neg (by omega)]
  obtain ⟨c, hc, hy'⟩ := hnext t'' r''
  refine hy'.bind fun u q => ?_
  rw [if_neg hc, hlen]
  have r'' := IsTrans.trans _ _ _ r'' q
  have h := k u r'' (w.reads r'').behindSep
  rwa [← Nat.add_assoc, ← Nat.sub_sub] at h

/-- The last number. -/
theorem ipv4_last {fuel : Nat} (ho : OctetRead loc nz g v)
    (w : Window E P s pos len (g.map some ++ rest)) (hv : v ≤ 255) (hr : NoDigit loc 10 rest)
    (h4 : ips.length = 3) :
    Yields Reads (parseIpv4Loop (ipNumFlags 10 loc nz) (fuel + 1) pos len ips) s
      (some (pos + g.length, len - g.length, ips ++ [v])) := by
  have hl := w.length
  simp only [List.length_append, List.length_map] at hl
  have hp := List.length_pos_iff.mpr ho.ne_nil
  obtain ⟨num, hnum, hlen, hy⟩ := ipv4_num ho w hr
  rw [parseIpv4Loop, if_neg (by omega)]
  refine hy.bind fun t r => ?_
  dsimp only
  rw [hnum, if_neg (by omega), if_neg (by omega), if_pos (.inl (by
    rw [List.length_append, List.length_singleton]
    omega)), hlen]
  exact .pure _ _

/-- The text of four numbers. -/
def octetsText (ga gb gc gd : List UInt8) : List UInt8 := joinGroups 0x2E [ga, gb, gc, gd]

theorem octetsText_eq (ga gb gc gd : List UInt8) : octetsText ga gb gc gd =
    ga ++ 0x2E :: (gb ++ 0x2E :: (gc ++ 0x2E :: gd)) := by
  simp [octetsText, joinGroups, List.intercalate_cons_cons]

/-- Four numbers, with or without leading zeros. -/
theorem octets_four {ga gb gc gd : List UInt8} {a b c d : Nat} (hoa : OctetRead loc nz ga a)
    (hob : OctetRead loc nz gb b) (hoc : OctetRead loc nz gc c) (hod : OctetRead loc nz gd d)
    (w : Window E P s pos len ((octetsText ga gb gc gd).map some ++ rest))
    (ha : a ≤ 255) (hb : b ≤ 255) (hc : c ≤ 255) (hd : d ≤ 255) (hr : NoDigit loc 10 rest) :
    Yields Reads (parseIpv4Loop (ipNumFlags 10 loc nz) 4 pos len []) s
      (some (pos + (octetsText ga gb gc gd).length, rest.length, [a, b, c, d])) := by
  have hl := w.length
  rw [List.length_append, List.length_map] at hl
  rw [octetsText_eq] at w hl
  simp only [List.map_append, List.map_cons, List.append_assoc, List.cons_append] at w
  simp only [List.length_append, List.length_cons] at hl
  refine ipv4_step hoa hob w ha (by decide) fun t r w1 => ?_
  refine ipv4_step hob hoc w1 hb (by simp) fun t' r' w2 => ?_
  refine ipv4_step hoc hod w2 hc (by simp) fun u q w3 => ?_
  have h : Yields Reads (parseIpv4Loop (ipNumFlags 10 loc nz) 1 _ _ [a, b, c]) u _ :=
    ipv4_last hod w3 hd hr rfl
  have e1 : pos + (ga.length + 1) + (gb.length + 1) + (gc.length + 1) + gd.length =
      pos + (octetsText ga gb gc gd).length := by
    rw [octetsText_eq]
    simp only [List.length_append, List.length_cons]
    omega
  have e2 : len - (ga.length + 1) - (gb.length + 1) - (gc.length + 1) - gd.length =
      rest.length := by
    omega
  rwa [e1, e2] at h

/-- The text of an IPv4 address. -/
def ipv4Text (a b c d : Nat) : List UInt8 := joinGroups 0x2E ([a, b, c, d].map (numText 10))

theorem ipv4Text_eq (a b c d : Nat) : ipv4Text a b c d = numText 10 a ++ 0x2E ::
    (numText 10 b ++ 0x2E :: (numText 10 c ++ 0x2E :: numText 10 d)) := by
  simp [ipv4Text, joinGroups, List.intercalate_cons_cons]

/-- Four numbers. -/
theorem ipv4_four {a b c d : Nat} (w : Window E P s pos len ((ipv4Text a b c d).map some ++ rest))
    (ha : a ≤ 255) (hb : b ≤ 255) (hc : c ≤ 255) (hd : d ≤ 255) (hr : NoDigit loc 10 rest) :
    Yields Reads (parseIpv4Loop (ipNumFlags 10 loc nz) 4 pos len []) s
      (some (pos + (ipv4Text a b c d).length, rest.length, [a, b, c, d])) :=
  octets_four (octetRead_numText loc nz (by omega)) (octetRead_numText loc nz (by omega))
    (octetRead_numText loc nz (by omega)) (octetRead_numText loc nz (by omega)) w ha hb hc hd hr

/-- An IPv4 address at the end. -/
theorem ipv4_addr {a b c d : Nat} {cidr : Option Nat}
    (w : Window E P s pos len ((ipv4Text a b c d ++ suffixText cidr).map some))
    (ha : a ≤ 255) (hb : b ≤ 255) (hc : c ≤ 255) (hd : d ≤ 255) :
    Yields Reads (parseIpv4 (ipv4EndFlags loc) pos len) s
      (.ok ⟨[a, b, c, d], 32, (ipv4Text a b c d).length, false⟩) := by
  have hl := w.length
  rw [List.length_map, List.length_append] at hl
  have hloop : Yields Reads (parseIpv4Loop (ipNumFlags 10 loc true) 4 pos len []) s
      (some (pos + (ipv4Text a b c d).length, (suffixText cidr).length, [a, b, c, d])) := by
    have w' := w
    rw [List.map_append] at w'
    have h : Yields Reads (parseIpv4Loop (ipNumFlags 10 loc true) 4 pos len []) s _ :=
      ipv4_four w' ha hb hc hd (stops_suffix loc 10 cidr).noDigit
    rwa [List.length_map] at h
  have hfull : ¬ (([a, b, c, d].length ≠ 4) ∧ (ipv4EndFlags loc).full = true) := by simp
  have hleft : len - (suffixText cidr).length = (ipv4Text a b c d).length := by omega
  have hres : (⟨[a, b, c, d] ++ List.replicate (4 - [a, b, c, d].length) 0, 32,
      len - (suffixText cidr).length,
      decide ((suffixText cidr).length ≠ 0 ∧ (ipv4EndFlags loc).only = true)⟩ : ParsedIpv4) =
      ⟨[a, b, c, d], 32, (ipv4Text a b c d).length, false⟩ := by
    rw [hleft]
    simp [ipv4EndFlags]
  unfold parseIpv4
  refine hloop.bind fun t r => ?_
  dsimp only
  rw [if_neg hfull]
  by_cases hs : (suffixText cidr).length ≠ 0
  · rw [if_pos hs]
    have wt := w.reads r
    rw [List.map_append] at wt
    have hchr := wt.chr (show (ipv4Text a b c d).length < len by omega)
    refine hchr.bind fun t' r' => ?_
    refine (Yields.pure t' _).bind fun u q => ?_
    rw [if_neg (by simp [ipv4EndFlags]), if_neg (by simp [ipv4EndFlags])]
    refine (Yields.pure u _).bind fun u' q' => ?_
    dsimp only
    rw [hres]
    exact .pure _ _
  · rw [if_neg hs]
    refine (Yields.pure t false).bind fun t' r' => ?_
    rw [if_neg (by simp [ipv4EndFlags]), if_neg (by simp [ipv4EndFlags])]
    refine (Yields.pure t' _).bind fun u q => ?_
    dsimp only
    rw [hres]
    exact .pure _ _

/-- A byte that is not in the slice is not found in it. -/
theorem byteAt_ne {xs : List (Option UInt8)} {c : UInt8} (h0 : c ≠ 0) (h : some c ∉ xs) (i : Nat) :
    byteAt xs i ≠ c := by
  intro e
  unfold byteAt at e
  cases hx : xs[i]? with
  | none =>
    rw [hx] at e
    exact h0 e.symm
  | some x =>
    rw [hx] at e
    cases x with
    | none => exact h0 e.symm
    | some c' =>
      obtain rfl : c' = c := e
      exact h (List.mem_of_getElem? hx)

/-- Without a dot the loop reads at most one number. -/
theorem ipv4Loop_no_dot {xs : List (Option UInt8)} {fuel : Nat} (w : Window E P s pos len xs)
    (h : some 0x2E ∉ xs) : ∃ res, Yields Reads
      (parseIpv4Loop (ipNumFlags 10 loc true) (fuel + 1) pos len []) s res ∧
      ∀ p l ips, res = some (p, l, ips) → ips.length ≤ 1 := by
  rw [parseIpv4Loop]
  by_cases h0 : len = 0
  · rw [if_pos h0]
    exact ⟨_, .pure _ _, fun p l ips e => by cases e; simp⟩
  · rw [if_neg h0]
    have wn := w.take (show min 3 len ≤ len by omega)
    have hnum := parseNumUfunc_yields wn 32 (ipNumFlags 10 loc true)
    have hle := ufuncOf_len_le 32 (ipNumFlags 10 loc true) pos (xs.take (min 3 len))
    rw [wn.length] at hle
    generalize ufuncOf 32 (ipNumFlags 10 loc true) pos (xs.take (min 3 len)) = num at hnum hle
    by_cases hn : num.len = 0
    · refine ⟨some (pos, len, []), hnum.bind fun t r => ?_, ?_⟩
      · rw [if_pos hn]
        exact .pure _ _
      · intro p l ips e
        cases e
        simp
    · by_cases hv : num.num > 255
      · refine ⟨none, hnum.bind fun t r => ?_, ?_⟩
        · rw [if_neg hn, if_pos hv]
          exact .pure _ _
        · intro p l ips e
          cases e
      · refine ⟨some (pos + num.len, len - num.len, [] ++ [num.num]), hnum.bind fun t r => ?_, ?_⟩
        · dsimp only
          rw [if_neg hn, if_neg hv]
          by_cases hl : len - num.len = 0
          · rw [if_pos (.inr hl)]
            exact .pure _ _
          · rw [if_neg (by simpa using hl)]
            have hlt : num.len < len := by omega
            refine ((w.reads r).chr hlt).bind fun t' r' => ?_
            have r' := IsTrans.trans _ _ _ r r'
            by_cases hs : byteAt xs num.len = 0x2F
            · rw [if_pos hs]
              exact .pure _ _
            · rw [if_neg hs]
              refine ((w.reads r').chr hlt).bind fun t'' r'' => ?_
              rw [if_pos (byteAt_ne (by decide) h num.len)]
              exact .pure _ _
        · intro p l ips e
          cases e
          simp

/-- Without a dot it is no IPv4 address. -/
theorem ipv4_no_dot {xs : List (Option UInt8)} (w : Window E P s pos len xs)
    (h : some 0x2E ∉ xs) :
    ∃ err, Yields Reads (parseIpv4 (ipv4EndFlags loc) pos len) s (.error err) := by
  obtain ⟨res, hloop, hres⟩ : ∃ res, Yields Reads
      (parseIpv4Loop (ipNumFlags 10 loc true) 4 pos len []) s res ∧
      ∀ p l ips, res = some (p, l, ips) → ips.length ≤ 1 := ipv4Loop_no_dot w h
  cases res with
  | none =>
    refine ⟨.ipv4Oob, ?_⟩
    unfold parseIpv4
    exact hloop.bind fun t r => .pure _ _
  | some v =>
    have hlen := hres v.1 v.2.1 v.2.2 rfl
    refine ⟨.ipv4Full, ?_⟩
    unfold parseIpv4
    refine hloop.bind fun t r => ?_
    have hfull : v.2.2.length ≠ 4 ∧ (ipv4EndFlags loc).full = true := ⟨by omega, rfl⟩
    dsimp only
    rw [if_pos hfull]
    exact .pure _ _

/-! ## The whole address -/

/-- The groups when the last one was read. -/
theorem ipv6Spread_eight {r : Ipv6Loop} (h : r.scan = 8) (hl : r.ips.length = 8)
    (ho : r.offNull ≤ 8) : ipv6Spread r = r.ips := by
  unfold ipv6Spread
  split
  · rw [h, Nat.sub_self, List.replicate_zero, List.append_nil,
      List.take_of_length_le (l := r.ips.drop r.offNull) (by rw [List.length_drop]; omega),
      List.take_append_drop]
  · rfl

/-- A null field stands for the groups that are missing. -/
theorem ipv6Spread_null (nl : Nat) (bs cs : List Nat) (h : bs.length + 1 + cs.length ≤ 8) :
    ipv6Spread (.having (bs.length + 1) nl (bs ++ [0] ++ cs)) =
      bs ++ List.replicate (8 - bs.length - cs.length) 0 ++ cs := by
  have hlen : (bs ++ [0] ++ cs).length = bs.length + 1 + cs.length := by
    simp only [List.length_append, List.length_singleton]
  have hz : List.replicate (8 - bs.length - cs.length) 0 =
      0 :: List.replicate (8 - (bs.length + 1 + cs.length)) 0 := by
    rw [show 8 - bs.length - cs.length = 8 - (bs.length + 1 + cs.length) + 1 by omega,
      List.replicate_succ]
  have ht : (bs ++ [0] ++ cs ++ List.replicate (8 - (bs.length + 1 + cs.length)) 0).take
      (bs.length + 1) = bs ++ [0] := by
    rw [List.append_assoc]
    exact List.take_left' (by simp)
  have hd : (bs ++ [0] ++ cs ++ List.replicate (8 - (bs.length + 1 + cs.length)) 0).drop
      (bs.length + 1) = cs ++ List.replicate (8 - (bs.length + 1 + cs.length)) 0 := by
    rw [List.append_assoc]
    exact List.drop_left' (by simp)
  unfold ipv6Spread Ipv6Loop.having
  dsimp only
  rw [hlen, hz]
  split
  · rw [ht, hd, List.take_left' (by omega)]
    simp
  · obtain rfl : cs = [] := List.length_eq_zero_iff.mp (by omega)
    simp

/-- `vstr_parse_ipv6`, from what the loop and the end of the address give. -/
theorem parseIpv6_yields {fl : ParseIpv6Flags} {sects : List Sect} (r r' : Ipv6Loop)
    {res : Except ParseIpv6Err ParsedIpv6} (h2 : 2 ≤ len)
    (hsects : Yields Reads (parseIpv6Sects pos len) s sects)
    (hloop : ∀ t, Reads s t → Yields Reads (parseIpv6Loop (ipNumFlags 16 fl.loc false)
      sects.length sects (.having 0 0 [])) t (.ok r))
    (hend : r.scan ≠ 8 → ∀ t, Reads s t → Yields Reads
      (parseIpv6End fl.loc (sects.getD (r.scan - 1) ⟨0, 0⟩) r) t r')
    (hsame : r.scan = 8 → r' = r ∧ ipv6Spread r = r.ips)
    (hfull : r'.scan = 8 ∨ r'.offNull ≠ 0)
    (hrest : ∀ t, Reads s t → Yields Reads (parseIpv6Rest fl len
      ((sects.getD (r.scan - 1) ⟨0, 0⟩).pos + r'.numLen)
      (sizeSub (len - ((sects.getD (r.scan - 1) ⟨0, 0⟩).pos - pos)) r'.numLen) (ipv6Spread r'))
      t res) :
    Yields Reads (parseIpv6 fl pos len) s res := by
  unfold parseIpv6
  dsimp only
  rw [if_neg (by omega)]
  refine hsects.bind fun t q => ?_
  refine (hloop t q).bind fun t' q' => ?_
  have q' := IsTrans.trans _ _ _ q q'
  dsimp only
  by_cases h8 : r.scan ≠ 8
  · rw [if_pos h8]
    refine (hend h8 t' q').bind fun u p => ?_
    rw [if_neg (by omega)]
    exact hrest u (IsTrans.trans _ _ _ q' p)
  · obtain ⟨rfl, e⟩ := hsame (not_not.mp h8)
    rw [if_neg h8, ← e]
    exact hrest t' q'

/-- The end of the parse, behind a text whose last field is known. -/
theorem rest_behind {front t z : List UInt8} {res : Except ParseIpv6Err ParsedIpv6}
    {fl : ParseIpv6Flags} (w : Window E P s pos len ((front ++ (t ++ z)).map some))
    (h : ∀ {p l}, Window E P s p l (z.map some) →
      Yields Reads (parseIpv6Rest fl len p l ips) s res) :
    Yields Reads (parseIpv6Rest fl len (pos + front.length + t.length)
      (sizeSub (len - (pos + front.length - pos)) t.length) ips) s res := by
  have hl := w.length
  rw [List.length_map, List.length_append, List.length_append] at hl
  rw [← List.append_assoc, List.map_append] at w
  have w' := w.behind
  rw [List.length_map, List.length_append, ← Nat.add_assoc] at w'
  have e : sizeSub (len - (pos + front.length - pos)) t.length =
      len - (front.length + t.length) := by
    rw [sizeSub, if_pos (by omega)]
    omega
  rw [e]
  exact h w'

/-- The end of the parse, at a suffix that is in range or at the end. -/
theorem rest_last {front t : List UInt8} {cidr : Option Nat} (fl : ParseIpv6Flags)
    (w : Window E P s pos len ((front ++ (t ++ suffixText cidr)).map some)) (ips : List Nat)
    (hfl : cidr.isSome = true → fl.cidr = true) (hc : ∀ c ∈ cidr, c ≤ 128) :
    Yields Reads (parseIpv6Rest fl len (pos + front.length + t.length)
      (sizeSub (len - (pos + front.length - pos)) t.length) ips) s
      (.ok ⟨ips, cidr.getD 128, len, false⟩) :=
  rest_behind w fun w' => rest_suffix cidr fl len ips w' hfl hc

/-- The sections `xs` bring the loop to the groups `done`. -/
def Leads (s : St) (loc : Bool) (num : Nat) (xs : List Sect) (off nl : Nat) (done : List Nat) :
    Prop :=
  ∀ (t : St) (ys : List Sect) (res : Except ParseIpv6Err Ipv6Loop), Reads s t →
    (∀ u, Reads s u → Yields Reads
      (parseIpv6Loop (ipNumFlags 16 loc false) num ys (.having off nl done)) u res) →
    Yields Reads (parseIpv6Loop (ipNumFlags 16 loc false) num (xs ++ ys) (.having 0 0 [])) t res

/-- Groups. -/
theorem leads_fields {xs : List Sect} {fs : List HexRead}
    (hold : Holds E P s xs (fs.map HexRead.text)) (hfs : ∀ f ∈ fs, f.Ok loc)
    (h8 : fs.length ≤ 8) (num : Nat) :
    Leads s loc num xs 0 (lastLen 0 fs) (fs.map HexRead.val) := by
  intro t ys res r k
  refine loop_fields (Holds.reads hold r) hfs (by simpa using h8) fun u q => ?_
  exact k u (IsTrans.trans _ _ _ r q)

/-- Groups, a null field, and groups. -/
theorem leads_null {xs ys : List Sect} {fs gs : List HexRead} (p : Nat)
    (hold : Holds E P s xs (fs.map HexRead.text)) (hfs : ∀ f ∈ fs, f.Ok loc)
    (hold' : Holds E P s ys (gs.map HexRead.text)) (hgs : ∀ g ∈ gs, g.Ok loc)
    (h8 : fs.length + 1 + gs.length ≤ 8) (num : Nat) :
    Leads s loc num (xs ++ ⟨p, 0⟩ :: ys) (fs.length + 1) (lastLen (lastLen 0 fs) gs)
      (fs.map HexRead.val ++ [0] ++ gs.map HexRead.val) := by
  intro t zs res r k
  rw [List.append_assoc, List.cons_append]
  refine loop_fields (Holds.reads hold r) hfs (by rw [List.length_nil]; omega) fun u q => ?_
  have q := IsTrans.trans _ _ _ r q
  refine loop_null (by simp only [List.nil_append, List.length_map]; omega) ?_
  rw [List.nil_append, List.length_map]
  refine loop_fields (Holds.reads hold' q) hgs ?_ fun u' q' => ?_
  · simp only [List.length_append, List.length_map, List.length_singleton]
    omega
  · exact k u' (IsTrans.trans _ _ _ q q')

/-- Groups and a null field. -/
theorem leads_null_end {xs : List Sect} {fs : List HexRead} (p : Nat)
    (hold : Holds E P s xs (fs.map HexRead.text)) (hfs : ∀ f ∈ fs, f.Ok loc)
    (h8 : fs.length + 1 ≤ 8) (num : Nat) :
    Leads s loc num (xs ++ [⟨p, 0⟩]) (fs.length + 1) (lastLen 0 fs)
      (fs.map HexRead.val ++ [0]) := by
  have hnil : Holds E P s [] (([] : List HexRead).map HexRead.text) := .nil
  have hno : ∀ g ∈ ([] : List HexRead), g.Ok loc := fun g hg => by cases hg
  have h := leads_null p hold hfs hnil hno h8 num
  rwa [List.map_nil, List.append_nil] at h

variable {front t : List UInt8} {cidr : Option Nat} {fl : ParseIpv6Flags} {xs : List Sect}

theorem getD_last (xs : List Sect) (x : Sect) : (xs ++ [x]).getD xs.length ⟨0, 0⟩ = x := by
  rw [List.getD_eq_getElem?_getD, List.getElem?_append_right (Nat.le_refl _)]
  simp

/-- The slice of the last field. -/
theorem Window.lastField
    (w : Window E P s pos len ((front ++ (t ++ suffixText cidr)).map some)) :
    Window E P s (pos + front.length) (t ++ suffixText cidr).length
      ((t ++ suffixText cidr).map some) := by
  have hlen := w.length
  rw [List.length_map, List.length_append] at hlen
  rw [List.map_append] at w
  have h := w.behind
  rwa [List.length_map, show len - front.length = (t ++ suffixText cidr).length by omega] at h

/-- An address that ends with a group, for what is behind the group. -/
theorem parse_hex_of {g : List UInt8} {l : Nat} {res : Except ParseIpv6Err ParsedIpv6}
    (w : Window E P s (pos + front.length) g.length (g.map some)) (h2 : 2 ≤ len)
    (hsects : Yields Reads (parseIpv6Sects pos len) s (xs ++ [⟨pos + front.length, g.length⟩]))
    (hl : Leads s fl.loc (xs.length + 1) xs off nl done) (hf : HexRead.Ok fl.loc ⟨g, v, l⟩)
    (hx : done.length = xs.length) (h8 : done.length < 8) (hoff : off ≤ done.length)
    (hfull : off = 0 → done.length = 7) (hdot : 0x2E ∉ g)
    (hrest : ∀ u, Reads s u → Yields Reads (parseIpv6Rest fl len (pos + front.length + l)
      (sizeSub (len - (pos + front.length - pos)) l)
      (ipv6Spread (.having off l (done ++ [v])))) u res) :
    Yields Reads (parseIpv6 fl pos len) s res := by
  have hscan : (Ipv6Loop.having off l (done ++ [v])).scan = xs.length + 1 := by
    rw [← hx]
    exact List.length_append
  have hlast : (xs ++ [(⟨pos + front.length, g.length⟩ : Sect)]).getD
      ((Ipv6Loop.having off l (done ++ [v])).scan - 1) ⟨0, 0⟩ =
      ⟨pos + front.length, g.length⟩ := by
    rw [hscan, Nat.add_sub_cancel]
    exact getD_last _ _
  refine parseIpv6_yields (.having off l (done ++ [v])) (.having off l (done ++ [v])) h2 hsects
    ?_ ?_ ?_ ?_ ?_
  · intro u q
    rw [List.length_append, List.length_singleton]
    refine hl u _ _ q fun u' q' => ?_
    refine loop_field (f := ⟨g, v, l⟩) (w.reads q') hf h8 fun u'' _ => ?_
    exact .pure _ _
  · intro hne u q
    rw [hlast]
    unfold parseIpv6End
    split
    · obtain ⟨err, herr⟩ :
          ∃ err, Yields Reads (parseIpv4 (ipv4EndFlags fl.loc) _ _) u (.error err) :=
        ipv4_no_dot (w.reads q) (by simpa using hdot)
      exact herr.bind fun u' q' => .pure _ _
    · exact .pure _ _
  · intro h
    refine ⟨rfl, ipv6Spread_eight h ?_ ?_⟩
    · simp only [Ipv6Loop.having, List.length_append, List.length_replicate, List.length_singleton]
      omega
    · change off ≤ 8
      omega
  · by_cases h0 : off = 0
    · left
      have := hfull h0
      omega
    · exact .inr h0
  · intro u q
    rw [hlast]
    exact hrest u q

/-- The first number of an IPv4 address, read as a group. -/
theorem ipv4Text_hex (loc : Bool) {a : Nat} (b c d : Nat) (cidr : Option Nat) (ha : a ≤ 255) :
    ∃ v l, HexRead.Ok loc ⟨ipv4Text a b c d ++ suffixText cidr, v, l⟩ := by
  have hb : TextBase 16 := .inr rfl
  have hten : TextBase 10 := .inl rfl
  have htext : ∃ rest : List (Option UInt8), (ipv4Text a b c d ++ suffixText cidr).map some =
      (numText 10 a).map some ++ some 0x2E :: rest := by
    rw [ipv4Text_eq]
    simp
  obtain ⟨rest, htext⟩ := htext
  have hr : Stops loc 16 (some 0x2E :: rest) := stops_cons loc 16 (by decide)
  by_cases h0 : a = 0
  · subst h0
    have h : ∀ pos, _ := fun pos => ufuncOf_zeros (k := 1) (hb.plain loc false) 32 pos (.inr rfl)
      hr.noDigit (hr.noDigit.notAmong_zero hb) (fun _ _ => hr.noPrefix) (.inl one_ne_zero)
    refine ⟨0, 1, ⟨fun pos => ?_, fun pos => ?_, show 1 ≤ 1 by decide, show 1 ≤ 4 by decide,
      show 0 ≤ 0xFFFF by decide⟩⟩
    · rw [htext]
      exact (h pos).1
    · rw [htext]
      exact (h pos).2
  · have hlt : ∀ d ∈ digitList 10 a, d < 16 := fun d hd => by
      have := digitList_lt hten hd
      omega
    have hlen := length_numText_le hten (show 1 ≤ 3 by omega) (show a < 10 ^ 3 by omega)
    have hne := numText_ne_nil 10 a
    rw [numText_eq h0] at htext hlen hne
    have hpos := List.length_pos_iff.mpr hne
    have hval : Numeral.value 16 (digitList 10 a) ≤ 0xFFFF := by
      have h1 := Numeral.value_lt hlt
      rw [List.length_map] at hlen
      have h2 : 16 ^ (digitList 10 a).length ≤ 16 ^ 3 := Nat.pow_le_pow_right (by decide) hlen
      omega
    have h : ∀ pos, _ := fun pos => ufuncOf_number (k := 0) (hb.plain loc false) 32 pos (.inl rfl)
      (allDigits_map hb loc hlt) hr.noDigit (notAmong_digitList hten h0)
      (fun h => absurd h (by decide)) (.inr (by simp))
    rw [digitsVal, show (ipNumFlags 16 loc false).loc = loc from rfl, map_digitChr hb loc hlt,
      Nat.mod_eq_of_lt (show Numeral.value 16 (digitList 10 a) < 2 ^ 32 by omega),
      Nat.zero_add, ← htext] at h
    exact ⟨_, _, ⟨fun pos => (h pos).1, fun pos => (h pos).2, by dsimp only; omega,
      by dsimp only; omega, hval⟩⟩

/-- The last two groups of an IPv4 address. -/
theorem having_ipv4 (off l l' v x y : Nat) (h8 : done.length ≤ 6) :
    ({ scan := (Ipv6Loop.having off l (done ++ [v])).scan + 1,
       offNull := (Ipv6Loop.having off l (done ++ [v])).offNull, numLen := l',
       ips := ((Ipv6Loop.having off l (done ++ [v])).ips.set
         ((Ipv6Loop.having off l (done ++ [v])).scan - 1) x).set
           (Ipv6Loop.having off l (done ++ [v])).scan y } : Ipv6Loop) =
      .having off l' (done ++ [x, y]) := by
  have hz : List.replicate (8 - (done.length + 1)) 0 =
      0 :: List.replicate (8 - (done.length + 2)) 0 := by
    rw [show 8 - (done.length + 1) = 8 - (done.length + 2) + 1 by omega, List.replicate_succ]
  simp only [Ipv6Loop.having, List.length_append, List.length_cons, List.length_nil]
  rw [hz]
  simp [List.set_append_right]

/-- An address that ends with an IPv4 address, for what is behind it. -/
theorem parse_ipv4_of {a b c d : Nat} {res : Except ParseIpv6Err ParsedIpv6}
    (w : Window E P s pos len ((front ++ (ipv4Text a b c d ++ suffixText cidr)).map some))
    (hsects : Yields Reads (parseIpv6Sects pos len) s
      (xs ++ [⟨pos + front.length, (ipv4Text a b c d ++ suffixText cidr).length⟩]))
    (hl : Leads s fl.loc (xs.length + 1) xs off nl done) (hx : done.length = xs.length)
    (h8 : done.length ≤ 6) (hfull : off = 0 → done.length = 6)
    (ha : a ≤ 255) (hb : b ≤ 255) (hc : c ≤ 255) (hd : d ≤ 255)
    (hrest : ∀ u, Reads s u → Yields Reads (parseIpv6Rest fl len
      (pos + front.length + (ipv4Text a b c d).length)
      (sizeSub (len - (pos + front.length - pos)) (ipv4Text a b c d).length)
      (ipv6Spread (.having off (ipv4Text a b c d).length
        (done ++ [b + a * 256, d + c * 256])))) u res) :
    Yields Reads (parseIpv6 fl pos len) s res := by
  obtain ⟨v, l, hf⟩ := ipv4Text_hex fl.loc b c d cidr ha
  have htext : 7 ≤ (ipv4Text a b c d).length := by
    have h1 := List.length_pos_iff.mpr (numText_ne_nil 10 a)
    have h2 := List.length_pos_iff.mpr (numText_ne_nil 10 b)
    have h3 := List.length_pos_iff.mpr (numText_ne_nil 10 c)
    have h4 := List.length_pos_iff.mpr (numText_ne_nil 10 d)
    rw [ipv4Text_eq]
    simp only [List.length_append, List.length_cons]
    omega
  have h2 : 2 ≤ len := by
    have := w.length
    rw [List.length_map, List.length_append, List.length_append] at this
    omega
  have hscan : (Ipv6Loop.having off l (done ++ [v])).scan = xs.length + 1 := by
    rw [← hx]
    exact List.length_append
  have hlast : (xs ++ [(⟨pos + front.length, (ipv4Text a b c d ++ suffixText cidr).length⟩ :
      Sect)]).getD ((Ipv6Loop.having off l (done ++ [v])).scan - 1) ⟨0, 0⟩ =
      ⟨pos + front.length, (ipv4Text a b c d ++ suffixText cidr).length⟩ := by
    rw [hscan, Nat.add_sub_cancel]
    exact getD_last _ _
  have wl := w.lastField
  refine parseIpv6_yields (.having off l (done ++ [v])) (.having off (ipv4Text a b c d).length
    (done ++ [b + a * 256, d + c * 256])) h2 hsects ?_ ?_ ?_ ?_ ?_
  · intro u q
    rw [List.length_append, List.length_singleton]
    refine hl u _ _ q fun u' q' => ?_
    refine loop_field (f := ⟨ipv4Text a b c d ++ suffixText cidr, v, l⟩) (wl.reads q') hf
      (by omega) fun u'' _ => ?_
    exact .pure _ _
  · intro hne u q
    rw [hlast]
    unfold parseIpv6End
    have hcond : (ipv4Text a b c d ++ suffixText cidr).length > 4 ∧
        ((Ipv6Loop.having off l (done ++ [v])).offNull ≠ 0 ∨
          (Ipv6Loop.having off l (done ++ [v])).scan = 7) := by
      refine ⟨by rw [List.length_append]; omega, ?_⟩
      by_cases h0 : off = 0
      · right
        have := hfull h0
        omega
      · exact .inl h0
    rw [if_pos hcond]
    refine (ipv4_addr (wl.reads q) ha hb hc hd).bind fun u' q' => ?_
    have e := having_ipv4 off l (ipv4Text a b c d).length v (b + a * 256) (d + c * 256) h8
    dsimp only
    rw [show [a, b, c, d].getD 1 0 + [a, b, c, d].getD 0 0 * 256 = b + a * 256 from rfl,
      show [a, b, c, d].getD 3 0 + [a, b, c, d].getD 2 0 * 256 = d + c * 256 from rfl, e]
    exact .pure _ _
  · intro h
    omega
  · by_cases h0 : off = 0
    · left
      have := hfull h0
      simp [Ipv6Loop.having, this]
    · exact .inr h0
  · intro u q
    rw [hlast]
    exact hrest u q

/-- The loop at a suffix behind a null field. -/
def Ipv6Loop.slash (nl : Nat) (done : List Nat) : Ipv6Loop :=
  ⟨done.length + 1, done.length, nl, done ++ List.replicate (8 - done.length) 0⟩

theorem ipv6Spread_slash (nl : Nat) (h8 : done.length ≤ 7) :
    ipv6Spread (.slash nl done) = done ++ List.replicate (8 - done.length) 0 := by
  have hz : List.replicate (8 - done.length) 0 =
      List.replicate (8 - (done.length + 1)) 0 ++ [0] := by
    rw [show 8 - done.length = 8 - (done.length + 1) + 1 by omega, List.replicate_succ']
  unfold ipv6Spread Ipv6Loop.slash
  dsimp only
  rw [if_pos (by omega), List.take_left, List.drop_left,
    show done.length + 1 - done.length = 1 by omega]
  obtain ⟨k, hk⟩ : ∃ k, 8 - done.length = k + 1 := ⟨7 - done.length, by omega⟩
  have ht : (List.replicate (8 - done.length) 0).take 1 = [0] := by
    rw [hk]
    rfl
  rw [ht, hz, List.append_assoc]

/-- An address that ends with a null field and a suffix, for what is behind the null
field. -/
theorem parse_slash_of {c : Nat} {res : Except ParseIpv6Err ParsedIpv6}
    (w : Window E P s pos len ((front ++ ([] ++ suffixText (some c))).map some)) (h2 : 2 ≤ len)
    (hsects : Yields Reads (parseIpv6Sects pos len) s
      (xs ++ [⟨pos + front.length, (suffixText (some c)).length⟩]))
    (hl : Leads s fl.loc (xs.length + 1) xs done.length nl done) (hx : done.length = xs.length)
    (h0 : done ≠ []) (h8 : done.length ≤ 7)
    (hrest : ∀ u, Reads s u → Yields Reads (parseIpv6Rest fl len (pos + front.length + 0)
      (sizeSub (len - (pos + front.length - pos)) 0)
      (done ++ List.replicate (8 - done.length) 0)) u res) :
    Yields Reads (parseIpv6 fl pos len) s res := by
  have hpos := List.length_pos_iff.mpr h0
  have hscan : (Ipv6Loop.slash 0 done).scan = xs.length + 1 := congrArg (· + 1) hx
  have hlast : (xs ++ [(⟨pos + front.length, (suffixText (some c)).length⟩ : Sect)]).getD
      ((Ipv6Loop.slash 0 done).scan - 1) ⟨0, 0⟩ =
      ⟨pos + front.length, (suffixText (some c)).length⟩ := by
    rw [hscan, Nat.add_sub_cancel]
    exact getD_last _ _
  have wl := w.lastField
  have htext : suffixText (some c) = 0x2F :: numText 10 c := rfl
  rw [← ipv6Spread_slash 0 h8] at hrest
  refine parseIpv6_yields (.slash 0 done) (.slash 0 done) h2 hsects ?_ ?_ ?_ ?_ ?_
  · intro u q
    rw [List.length_append, List.length_singleton]
    refine hl u _ _ q fun u' q' => ?_
    have hs := stops_suffix fl.loc 16 (some c)
    have hn := ufuncOf_zeros (k := 0) (plain_sixteen fl.loc false) 32 (pos + front.length)
      (.inl rfl) hs.noDigit (hs.noDigit.notAmong_zero (.inr rfl))
      (fun h => absurd h (by decide)) (.inr (by simp [htext]))
    have hnum := parseNumUfunc_yields (wl.reads q') 32 (ipNumFlags 16 fl.loc false)
    rw [parseIpv6Loop, if_neg (by rw [htext]; simp)]
    refine hnum.bind fun u'' _ => ?_
    have hn0 : (ufuncOf 32 (ipNumFlags 16 fl.loc false) (pos + front.length)
        (([] ++ suffixText (some c)).map some)).len = 0 := hn.2
    have hcond : 0 = 0 ∧ (Ipv6Loop.having done.length nl done).offNull ≠ 0 ∧
        (Ipv6Loop.having done.length nl done).offNull =
          (Ipv6Loop.having done.length nl done).scan + 1 - 1 ∧
        (Ipv6Loop.having done.length nl done).scan + 1 = xs.length + 1 :=
      ⟨rfl, (show done.length ≠ 0 by omega), rfl, congrArg (· + 1) hx⟩
    rw [hn0, if_pos hcond]
    exact .pure _ _
  · intro hne u q
    rw [hlast]
    unfold parseIpv6End
    split
    · obtain ⟨err, herr⟩ :
          ∃ err, Yields Reads (parseIpv4 (ipv4EndFlags fl.loc) _ _) u (.error err) :=
        ipv4_no_dot (w.lastField.reads q) (suffixText_dot (some c))
      exact herr.bind fun u' q' => .pure _ _
    · exact .pure _ _
  · intro h
    refine ⟨rfl, ipv6Spread_eight h ?_ ?_⟩
    · simp only [Ipv6Loop.slash, List.length_append, List.length_replicate]
      omega
    · change done.length ≤ 8
      omega
  · right
    change done.length ≠ 0
    omega
  · intro u q
    rw [hlast]
    exact hrest u q

end Vstr
