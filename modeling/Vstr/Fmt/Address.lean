import Vstr.Fmt.C99
import Vstr.Model.IpFmt

/-!
# The numbers of an address

The address formatters leave their numbers to `vstr_add_fmt`, with `%u`, `%X` and `%04X`. The
texts that the model of these formatters is made of are the ones that `vstr_add_fmt` adds.
-/

namespace Vstr.Fmt

/-! ## Conversions -/

/-- The conversions in the formats of addresses. -/
inductive GroupConv where
  /-- `%u`. -/
  | dec
  /-- `%X`. -/
  | hex
  /-- `%04X`. -/
  | hex4
  deriving DecidableEq, Repr

/-- The conversion in a format. -/
def GroupConv.chrs : GroupConv → List UInt8
  | dec => [0x25, 0x75]
  | hex => [0x25, 0x58]
  | hex4 => [0x25, 0x30, 0x34, 0x58]

/-- The text of a number. -/
def GroupConv.text : GroupConv → Nat → List UInt8
  | dec, n => numText 10 n
  | hex, n => numText 16 n
  | hex4, n => hexText4 n

theorem four_lt_ten : 4 < 10 := by decide

/-- The width in `%04X`. -/
def four : Fin 10 := ⟨4, four_lt_ten⟩

theorem lead_four : ∃ (d : Fin 10) (ds : List (Fin 10)), [four] = d :: ds ∧ d ≠ 0 :=
  ⟨four, [], rfl, by decide⟩

/-- The conversion with its number. -/
def GroupConv.directive (n : Nat) : GroupConv → Directive Int
  | dec => ⟨n, [], .none, .none, .uint, .udec⟩
  | hex => ⟨n, [], .none, .none, .uint, .hexLarge⟩
  | hex4 => ⟨n, [.zeropad], .lit ⟨[four], lead_four⟩, .none, .uint, .hexLarge⟩

variable {b n : Nat} {sep : UInt8} {tail : List UInt8}

theorem standard_directive (k : GroupConv) (n : Nat) : (k.directive n).Standard := by
  cases k <;> exact fun h => by cases h

/-- The numbers in the conversions are small. -/
theorem fits_directive (k : GroupConv) (n : Nat) : (k.directive n).Fits := by
  have hw : (k.directive n).ints.width.width < 2 ^ 32 := by
    cases k with
    | dec => exact Nat.two_pow_pos 32
    | hex => exact Nat.two_pow_pos 32
    | hex4 => exact (show digitsNum [four] < 2 ^ 32 by decide)
  have hs : (k.directive n).conv.signed = false := by cases k <;> rfl
  have hp : (k.directive n).ints.prec.prec = none := by cases k <;> rfl
  refine ⟨fun p h => ?_, fun _ => ⟨hw, fun h => ?_⟩⟩
  · rw [hp] at h
    cases h
  · rw [hs] at h
    cases h

theorem value_directive (k : GroupConv) (hn : n < 2 ^ 32) : (k.directive n).value = n := by
  have h : (n : Int) % 2 ^ 32 = n := Int.emod_eq_of_lt (Int.natCast_nonneg _) (by exact_mod_cast hn)
  cases k <;> exact h

/-- The characters of the standard, and the ones of the formatters. -/
theorem c99Chrs_digitChr {large : Bool} {d : Nat} (hd : d < if large then 16 else 10) :
    (c99Chrs large).getD d 0 = digitChr d := by
  cases large with
  | false =>
    have h : ∀ d : Fin 10, (c99Chrs false).getD d.val 0 = digitChr d.val := by decide
    exact h ⟨d, hd⟩
  | true =>
    have h : ∀ d : Fin 16, (c99Chrs true).getD d.val 0 = digitChr d.val := by decide
    exact h ⟨d, hd⟩

/-- One digit at least. -/
theorem c99Numeral_numText (large : Bool) (n : Nat) :
    List.replicate (1 - (c99Numeral large (if large then 16 else 10) n).length) 0x30 ++
        c99Numeral large (if large then 16 else 10) n = numText (if large then 16 else 10) n := by
  have h1 : 1 < if large then 16 else 10 := by split <;> decide
  unfold numText c99Numeral
  by_cases h0 : n = 0
  · rw [if_pos h0, h0, Nat.digits_zero]
    rfl
  · have hne : 0 < (Nat.digits (if large then 16 else 10) n).length :=
      List.length_pos_iff.mpr (Nat.digits_ne_nil_iff_ne_zero.mpr h0)
    rw [if_neg h0, List.length_map, List.length_reverse, Nat.sub_eq_zero_of_le hne,
      List.replicate_zero, List.nil_append]
    refine List.map_congr_left fun d hd => c99Chrs_digitChr ?_
    exact Nat.digits_lt_base h1 (List.mem_reverse.mp hd)

/-- The digits of a number of an address. -/
theorem c99Digits_directive (k : GroupConv) (hn : n < 2 ^ 32) :
    (k.directive n).c99Digits 1 = if k = .dec then numText 10 n else numText 16 n := by
  have hv : (k.directive n).value.natAbs = n := by
    rw [value_directive k hn]
    rfl
  have hsp : ¬ (Flag.special ∈ (k.directive n).flags) := by
    cases k <;> simp [GroupConv.directive]
  unfold Directive.c99Digits
  dsimp only
  rw [if_neg (fun h => hsp h.1), hv]
  cases k with
  | dec => exact c99Numeral_numText false n
  | hex => exact c99Numeral_numText true n
  | hex4 => exact c99Numeral_numText true n

/-- **A number of an address.** -/
theorem added_directive (k : GroupConv) (hn : n < 2 ^ 32) :
    (k.directive n).added = k.text n := by
  have hd := c99Digits_directive k hn
  rw [(added_iff (standard_directive k n)).mpr (fits_directive k n)]
  cases k with
  | dec => exact (field_of_le (Nat.zero_le _) false false).trans hd
  | hex => exact (field_of_le (Nat.zero_le _) false false).trans hd
  | hex4 =>
    change field 4 false true [] [] (Directive.c99Digits _ 1) = hexText4 n
    rw [hd, if_neg (by decide)]
    unfold field hexText4
    simp

/-! ## Formats -/

/-- Conversions with text behind each. -/
abbrev Groups : Type := List (GroupConv × Nat × List UInt8)

/-- The format. -/
def Groups.format (gs : Groups) : Format Int :=
  ⟨[], gs.map fun g => (g.1.directive g.2.1, g.2.2)⟩

/-- The numbers. -/
def Groups.args (gs : Groups) : List Int := gs.map fun g => (g.2.1 : Int)

/-- The characters of the format. -/
def Groups.chrs (gs : Groups) : List UInt8 := gs.flatMap fun g => g.1.chrs ++ g.2.2

/-- The text. -/
def Groups.text (gs : Groups) : List UInt8 := gs.flatMap fun g => g.1.text g.2.1 ++ g.2.2

/-- Numbers of 32 bits, and text without `%`. -/
def Groups.Plain (gs : Groups) : Prop := ∀ g ∈ gs, g.2.1 < 2 ^ 32 ∧ 0x25 ∉ g.2.2

theorem escape_plain {t : List UInt8} (h : 0x25 ∉ t) : escape t = t := by
  induction t with
  | nil => rfl
  | cons c t ih =>
    have hc : c ≠ 0x25 := fun e => h (e ▸ List.mem_cons_self)
    unfold escape at ih ⊢
    rw [List.flatMap_cons, if_neg hc, ih fun hm => h (List.mem_cons_of_mem c hm)]
    rfl

/-- The conversion is written as it is. -/
theorem text_directive (k : GroupConv) (n : Nat) :
    0x25 :: ((k.directive n).map fun _ => (none : Option Param)).text = k.chrs := by
  cases k <;> rfl

/-- **A format of an address.** -/
theorem addFmt_groups {gs : Groups} (h : gs.Plain) : addFmt gs.chrs gs.args = some gs.text := by
  have hchrs : gs.format.next.text = gs.chrs := by
    unfold Groups.format Format.next Format.map Format.text Groups.chrs
    rw [List.map_map, List.flatMap_map]
    refine List.flatMap_congr fun g hg => ?_
    rw [← text_directive g.1 g.2.1]
    exact congrArg (_ ++ ·) (escape_plain (h g hg).2)
  have hargs : gs.format.args = gs.args := by
    unfold Groups.format Format.args Groups.args
    rw [List.flatMap_map, List.map_eq_flatMap]
    refine List.flatMap_congr fun g _ => ?_
    cases g.1 <;> rfl
  have htext : gs.format.added = gs.text := by
    unfold Format.added Groups.text
    rw [withTexts_map]
    unfold Groups.format
    rw [List.nil_append, List.flatMap_map]
    refine List.flatMap_congr fun g hg => ?_
    rw [added_directive g.1 (h g hg).1]
  rw [← hchrs, ← hargs, ← htext]
  exact addFmt_next gs.format

/-- Numbers as arguments. -/
def numArgs (ns : List Nat) : List Int := ns.map fun n : Nat => (n : Int)

/-- Numbers with a separator between them, and text behind. -/
def joined (k : GroupConv) (sep : UInt8) (tail : List UInt8) : List Nat → Groups
  | [] => []
  | [n] => [(k, n, tail)]
  | n :: m :: ns => (k, n, [sep]) :: joined k sep tail (m :: ns)

theorem flatMap_joined (k : GroupConv) (sep : UInt8) (tail : List UInt8)
    (f : GroupConv → Nat → List UInt8) {ns : List Nat} (h : ns ≠ []) :
    (joined k sep tail ns).flatMap (fun g => f g.1 g.2.1 ++ g.2.2) =
      joinGroups sep (ns.map (f k)) ++ tail := by
  induction ns with
  | nil => exact absurd rfl h
  | cons n ns ih =>
    cases ns with
    | nil => simp [joined, joinGroups]
    | cons m ns =>
      rw [joined, List.flatMap_cons, ih (List.cons_ne_nil m ns)]
      simp [joinGroups, List.intercalate_cons_cons]

theorem args_joined (k : GroupConv) (sep : UInt8) (tail : List UInt8) (ns : List Nat) :
    (joined k sep tail ns).args = numArgs ns := by
  induction ns with
  | nil => rfl
  | cons n ns ih =>
    cases ns with
    | nil => rfl
    | cons m ns => exact congrArg ((n : Int) :: ·) ih

theorem plain_joined (k : GroupConv) (hs : sep ≠ 0x25) (ht : 0x25 ∉ tail) {ns : List Nat}
    (h : ∀ n ∈ ns, n < 2 ^ 32) : (joined k sep tail ns).Plain := by
  induction ns with
  | nil => exact fun g hg => absurd hg List.not_mem_nil
  | cons n ns ih =>
    have hns := ih fun m hm => h m (List.mem_cons_of_mem n hm)
    have hn := h n List.mem_cons_self
    cases ns with
    | nil =>
      intro g hg
      rw [List.mem_singleton.mp hg]
      exact ⟨hn, ht⟩
    | cons m ns =>
      intro g hg
      rcases List.mem_cons.mp hg with rfl | hg
      · exact ⟨hn, fun hm => hs (List.mem_singleton.mp hm).symm⟩
      · exact hns g hg

/-- Numbers with a separator between them. -/
theorem addFmt_joined (k : GroupConv) (hs : sep ≠ 0x25) (ht : 0x25 ∉ tail) {ns : List Nat}
    (h0 : ns ≠ []) (h : ∀ n ∈ ns, n < 2 ^ 32) :
    addFmt (joinGroups sep (ns.map fun _ => k.chrs) ++ tail) (numArgs ns) =
      some (joinGroups sep (ns.map k.text) ++ tail) := by
  rw [← flatMap_joined k sep tail (fun k _ => k.chrs) h0,
    ← flatMap_joined k sep tail GroupConv.text h0, ← args_joined k sep tail ns]
  exact addFmt_groups (plain_joined k hs ht h)

/-! ## Addresses -/

variable {ips : List Nat}

/-- `%u.%u.%u.%u`. -/
def quadChrs : List UInt8 := joinGroups 0x2E (List.replicate 4 GroupConv.dec.chrs)

/-- The parts of an IPv4 address. -/
def quadOf (ips : List Nat) : List Nat := [ips.getD 0 0, ips.getD 1 0, ips.getD 2 0, ips.getD 3 0]

/-- The parts of the IPv4 address in the last two groups. -/
def quadEnd (ips : List Nat) : List Nat :=
  [ips.getD 6 0 / 256, ips.getD 6 0 % 256, ips.getD 7 0 / 256, ips.getD 7 0 % 256]

theorem getD_lt (h : ∀ x ∈ ips, x < 2 ^ 32) (i : Nat) : ips.getD i 0 < 2 ^ 32 := by
  rw [List.getD_eq_getElem?_getD]
  cases hi : ips[i]? with
  | none => exact Nat.two_pow_pos 32
  | some x => exact h x (List.mem_of_getElem? hi)

theorem quadOf_lt (h : ∀ x ∈ ips, x < 2 ^ 32) : ∀ n ∈ quadOf ips, n < 2 ^ 32 := by
  intro n hn
  simp only [quadOf, List.mem_cons, List.not_mem_nil, or_false] at hn
  rcases hn with rfl | rfl | rfl | rfl <;> exact getD_lt h _

theorem quadEnd_lt (h : ∀ x ∈ ips, x < 2 ^ 32) : ∀ n ∈ quadEnd ips, n < 2 ^ 32 := by
  intro n hn
  have h6 := getD_lt h 6
  have h7 := getD_lt h 7
  simp only [quadEnd, List.mem_cons, List.not_mem_nil, or_false] at hn
  rcases hn with rfl | rfl | rfl | rfl <;> omega

/-- The text of four parts. -/
theorem addFmt_quad {ns : List Nat} (h4 : ns.length = 4) (h : ∀ n ∈ ns, n < 2 ^ 32) :
    addFmt quadChrs (numArgs ns) = some (joinGroups 0x2E (ns.map (numText 10))) := by
  have h0 : ns ≠ [] := fun e => by simp [e] at h4
  have e := addFmt_joined .dec (by decide : (0x2E : UInt8) ≠ 0x25) List.not_mem_nil h0 h
  rw [List.append_nil, List.append_nil, List.map_const', h4] at e
  exact e

/-- **An IPv4 address.** The format is `%u.%u.%u.%u`, and `/%u` behind it for a suffix. -/
theorem fmtIpv4_added (h : ∀ x ∈ ips, x < 2 ^ 32) {c : Nat} (hc : c < 2 ^ 32) :
    addFmt quadChrs (numArgs (quadOf ips)) = some (fmtIpv4 ips none) ∧
      addFmt (quadChrs ++ 0x2F :: GroupConv.dec.chrs) (numArgs (quadOf ips ++ [c])) =
        some (fmtIpv4 ips (some c)) := by
  constructor
  · rw [addFmt_quad rfl (quadOf_lt h), fmtIpv4]
    exact congrArg some (List.append_nil _).symm
  · have hp : Groups.Plain (joined .dec 0x2E [0x2F] (quadOf ips) ++ [(.dec, c, [])]) := by
      intro g hg
      rcases List.mem_append.mp hg with hg | hg
      · exact plain_joined .dec (by decide) (by decide) (quadOf_lt h) g hg
      · rw [List.mem_singleton.mp hg]
        exact ⟨hc, List.not_mem_nil⟩
    have hf : ∀ f : GroupConv → Nat → List UInt8,
        (joined .dec 0x2E [0x2F] (quadOf ips) ++ [(GroupConv.dec, c, ([] : List UInt8))]).flatMap
          (fun g => f g.1 g.2.1 ++ g.2.2) =
        joinGroups 0x2E ((quadOf ips).map (f .dec)) ++ 0x2F :: f .dec c := fun f => by
      have h0 : quadOf ips ≠ [] := List.cons_ne_nil _ _
      rw [List.flatMap_append, flatMap_joined .dec 0x2E [0x2F] f h0,
        List.flatMap_singleton, List.append_nil, List.append_assoc, List.singleton_append]
    have ha : Groups.args (joined .dec 0x2E [0x2F] (quadOf ips) ++ [(.dec, c, [])]) =
        numArgs (quadOf ips ++ [c]) := by
      rw [numArgs, List.map_append, ← numArgs, ← args_joined .dec 0x2E [0x2F] (quadOf ips)]
      exact List.map_append
    have e := addFmt_groups hp
    rw [Groups.chrs, Groups.text, ha, hf fun k _ => k.chrs, hf GroupConv.text,
      List.map_const'] at e
    exact e

/-- The calls of `vstr_add_fmt` for an IPv6 address whose groups are all written. -/
def prntIpv6Calls (type : Ipv6Type) (ips : List Nat) : Option (List (List UInt8 × List Nat)) :=
  match type with
  | .aligned => some [(joinGroups 0x3A (List.replicate 8 GroupConv.hex4.chrs), ips)]
  | .std => some [(joinGroups 0x3A (List.replicate 8 GroupConv.hex.chrs), ips)]
  | .ipv4Aligned =>
    some [(joinGroups 0x3A (List.replicate 6 GroupConv.hex4.chrs) ++ [0x3A], ips.take 6),
      (quadChrs, quadEnd ips)]
  | .ipv4Std =>
    some [(joinGroups 0x3A (List.replicate 6 GroupConv.hex.chrs) ++ [0x3A], ips.take 6),
      (quadChrs, quadEnd ips)]
  | .compact => none
  | .ipv4Compact => none

/-- The text of calls, one behind the other. -/
def addedAll : List (List UInt8 × List Nat) → Option (List UInt8)
  | [] => some []
  | c :: cs => (addFmt c.1 (numArgs c.2)).bind fun t => (addedAll cs).map (t ++ ·)

theorem addedAll_one {fmt t : List UInt8} {ns : List Nat}
    (h : addFmt fmt (numArgs ns) = some t) : addedAll [(fmt, ns)] = some t := by
  rw [addedAll, addedAll, h, Option.bind_some, Option.map_some, List.append_nil]

theorem addedAll_two {fmt fmt' t t' : List UInt8} {ns ns' : List Nat}
    (h : addFmt fmt (numArgs ns) = some t) (h' : addFmt fmt' (numArgs ns') = some t') :
    addedAll [(fmt, ns), (fmt', ns')] = some (t ++ t') := by
  rw [addedAll, addedAll_one h', h, Option.bind_some, Option.map_some]

/-- **An IPv6 address** whose groups are all written. -/
theorem prntIpv6_added {type : Ipv6Type} {calls : List (List UInt8 × List Nat)}
    (hc : prntIpv6Calls type ips = some calls) (h8 : ips.length = 8)
    (h : ∀ x ∈ ips, x < 2 ^ 32) : addedAll calls = some (prntIpv6 type ips) := by
  have h0 : ips ≠ [] := fun e => by simp [e] at h8
  have h6 : (ips.take 6).length = 6 := by rw [List.length_take, h8]; rfl
  have h60 : ips.take 6 ≠ [] := fun e => by simp [e] at h6
  have ht : ∀ x ∈ ips.take 6, x < 2 ^ 32 := fun x hx => h x (List.mem_of_mem_take hx)
  have hall : ∀ k : GroupConv, addFmt (joinGroups 0x3A (List.replicate 8 k.chrs)) (numArgs ips) =
      some (joinGroups 0x3A (ips.map k.text)) := fun k => by
    have e := addFmt_joined k (by decide : (0x3A : UInt8) ≠ 0x25) List.not_mem_nil h0 h
    rwa [List.append_nil, List.append_nil, List.map_const', h8] at e
  have hsix : ∀ k : GroupConv, addFmt (joinGroups 0x3A (List.replicate 6 k.chrs) ++ [0x3A])
      (numArgs (ips.take 6)) = some (joinGroups 0x3A ((ips.take 6).map k.text) ++ [0x3A]) :=
    fun k => by
      have e := addFmt_joined k (by decide : (0x3A : UInt8) ≠ 0x25)
        (by decide : (0x25 : UInt8) ∉ [0x3A]) h60 ht
      rwa [List.map_const', h6] at e
  have hend : addFmt quadChrs (numArgs (quadEnd ips)) = some (prntIpv4End ips) :=
    addFmt_quad rfl (quadEnd_lt h)
  cases type with
  | aligned =>
    rw [← Option.some.inj hc]
    exact addedAll_one (hall .hex4)
  | std =>
    rw [← Option.some.inj hc]
    exact addedAll_one (hall .hex)
  | ipv4Aligned =>
    rw [← Option.some.inj hc]
    exact addedAll_two (hsix .hex4) hend
  | ipv4Std =>
    rw [← Option.some.inj hc]
    exact addedAll_two (hsix .hex) hend
  | compact => cases hc
  | ipv4Compact => cases hc

end Vstr.Fmt
