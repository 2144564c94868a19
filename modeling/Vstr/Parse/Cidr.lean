import Vstr.Parse.Address
import Vstr.Parse.Mask

/-!
# The number of bits behind an address

What `vstr_parse_ipv4` and `vstr_parse_ipv6` make of a number of bits behind an address: the
number is read as an `unsigned int` before it is compared, so a number that wraps to a small
one is accepted, and an IPv6 address is not always read to its end.
-/

namespace Vstr

open Memory Splice Query

variable {E : Env} {P : Own} {s : St} {pos len n : Nat}

/-! ## The range -/

/-- Anything may happen to the state. -/
def Anyhow (_ _ : St) : Prop := True

instance : Std.Refl Anyhow := ⟨fun _ => trivial⟩

instance : IsTrans St Anyhow := ⟨fun _ _ _ _ _ => trivial⟩

theorem ensures_any {α : Type} (m : StateM St α) (s : St) : Ensures Anyhow m s fun _ => True :=
  ⟨trivial, trivial⟩

/-- `vstr__parse_ipv4_cidr` returns a number of bits that is in range. -/
theorem parseIpv4Cidr_range {fl : ParseIpv4Flags} (hm : fl.netmask = false) (nf : ParseNumFlags)
    (p l : Nat) (t : St) :
    Ensures Anyhow (parseIpv4Cidr fl nf p l) t fun v => ∀ c l', v = .ok (c, l') → c ≤ 32 := by
  have hnum : ∀ (num : ParsedNum) (u : St), Ensures Anyhow (if num.len ≠ 0 then
        if num.num ≤ 32 then pure (.ok (num.num, l - num.len)) else pure (.error .cidrOob)
      else if fl.cidrFull then pure (.error .cidrFull)
      else pure (.ok (32, l)) : StateM St (Except ParseIpv4Err (Nat × Nat))) u
      fun v => ∀ c l', v = .ok (c, l') → c ≤ 32 := by
    intro num u
    split
    · split
      · rename_i h
        refine .pure _ ?_
        rintro c l' ⟨⟩
        exact h
      · exact .pure _ fun c l' e => by cases e
    · split
      · exact .pure _ fun c l' e => by cases e
      · refine .pure _ ?_
        rintro c l' ⟨⟩
        exact Nat.le_refl _
  unfold parseIpv4Cidr
  simp only [hm, Bool.false_eq_true, false_and, if_false]
  by_cases hl : l ≠ 0
  · rw [if_pos hl]
    exact (ensures_any _ t).bind fun num u _ _ => hnum num u
  · rw [if_neg hl]
    exact (ensures_any _ t).bind fun num u _ _ => hnum num u

/-- `vstr__parse_ipv6_cidr` returns a number of bits that is in range. -/
theorem parseIpv6Cidr_range (fl : ParseIpv6Flags) (p l : Nat) (t : St) :
    Ensures Anyhow (parseIpv6Cidr fl p l) t fun v => ∀ c l', v = .ok (c, l') → c ≤ 128 := by
  have hnum : ∀ (num : ParsedNum) (u : St), Ensures Anyhow (if num.len ≠ 0 then
        if num.num ≤ 128 then pure (.ok (num.num, sizeSub l num.len)) else pure (.error .cidrOob)
      else if fl.cidrFull then pure (.error .cidrFull)
      else pure (.ok (128, l)) : StateM St (Except ParseIpv6Err (Nat × Nat))) u
      fun v => ∀ c l', v = .ok (c, l') → c ≤ 128 := by
    intro num u
    split
    · split
      · rename_i h
        refine .pure _ ?_
        rintro c l' ⟨⟩
        exact h
      · exact .pure _ fun c l' e => by cases e
    · split
      · exact .pure _ fun c l' e => by cases e
      · refine .pure _ ?_
        rintro c l' ⟨⟩
        exact Nat.le_refl _
  unfold parseIpv6Cidr
  by_cases hl : l ≠ 0
  · rw [if_pos hl]
    exact (ensures_any _ t).bind fun num u _ _ => hnum num u
  · rw [if_neg hl]
    exact (ensures_any _ t).bind fun num u _ _ => hnum num u

/-- The result of `vstr_parse_ipv4` from its bits. -/
theorem ipv4Result_range {fl : ParseIpv4Flags} (len : Nat) (is : List Nat)
    (v : Except ParseIpv4Err (Nat × Nat)) (t : St) : (∀ c l', v = .ok (c, l') → c ≤ 32) →
    Ensures Anyhow (match v with
      | .error err => pure (.error err)
      | .ok (cidr, l) => pure (.ok ⟨is, cidr, len - l, l ≠ 0 ∧ fl.only⟩) :
        StateM St (Except ParseIpv4Err ParsedIpv4)) t fun v => ∀ r, v = .ok r → r.cidr ≤ 32 := by
  intro h
  cases v with
  | error err => exact .pure _ fun r e => by cases e
  | ok v =>
    refine .pure _ ?_
    rintro r ⟨⟩
    exact h v.1 v.2 rfl

/-- The bits behind the numbers, and the result. -/
theorem ipv4Tail_range {fl : ParseIpv4Flags} (hm : fl.netmask = false) (len p l : Nat)
    (is : List Nat) (slash : Bool) (t : St) : Ensures Anyhow (do
      let rest ← if slash ∧ fl.cidr then
          parseIpv4Cidr fl (ipNumFlags 10 fl.loc (!fl.zeros)) (p + 1) (l - 1)
        else if slash ∧ fl.netmask then
          parseIpv4Netmask fl (ipNumFlags 10 fl.loc (!fl.zeros)) (p + 1) (l - 1)
        else pure (.ok (32, l))
      match rest with
      | .error err => return .error err
      | .ok (cidr, l) => return .ok ⟨is, cidr, len - l, l ≠ 0 ∧ fl.only⟩ :
        StateM St (Except ParseIpv4Err ParsedIpv4)) t fun v => ∀ r, v = .ok r → r.cidr ≤ 32 := by
  by_cases hc : slash ∧ fl.cidr
  · rw [if_pos hc]
    exact (parseIpv4Cidr_range hm _ _ _ t).bind fun v u _ hv => ipv4Result_range len is v u hv
  · rw [if_neg hc, if_neg (by simp [hm])]
    refine (Ensures.pure t (Q := fun v => ∀ c l', v = .ok (c, l') → c ≤ 32) ?_).bind
      fun v u _ hv => ipv4Result_range len is v u hv
    rintro c l' ⟨⟩
    exact Nat.le_refl _

/-- A number of bits that `vstr_parse_ipv4` returns is in range. -/
theorem parseIpv4_range {fl : ParseIpv4Flags} (hm : fl.netmask = false) (s : St) (pos len : Nat) :
    Ensures Anyhow (parseIpv4 fl pos len) s fun v => ∀ r, v = .ok r → r.cidr ≤ 32 := by
  unfold parseIpv4
  refine (ensures_any _ s).bind fun v t _ _ => ?_
  cases v with
  | none => exact .pure _ fun r e => by cases e
  | some v =>
    dsimp only
    by_cases hf : v.2.2.length ≠ 4 ∧ fl.full
    · rw [if_pos hf]
      exact .pure _ fun r e => by cases e
    · rw [if_neg hf]
      by_cases hl : v.2.1 ≠ 0
      · rw [if_pos hl]
        refine (ensures_any _ t).bind fun c u _ _ => ?_
        exact (ensures_any _ u).bind fun slash u' _ _ => ipv4Tail_range hm _ _ _ _ slash u'
      · rw [if_neg hl]
        exact (ensures_any _ t).bind fun slash u' _ _ => ipv4Tail_range hm _ _ _ _ slash u'

/-- The result of `vstr_parse_ipv6` from its bits. -/
theorem ipv6Result_range {fl : ParseIpv6Flags} (len : Nat) (is : List Nat)
    (v : Except ParseIpv6Err (Nat × Nat)) (t : St) : (∀ c l', v = .ok (c, l') → c ≤ 128) →
    Ensures Anyhow (match v with
      | .error err => pure (.error err)
      | .ok (cidr, l) => pure (.ok ⟨is, cidr, sizeSub len l, l ≠ 0 ∧ fl.only⟩) :
        StateM St (Except ParseIpv6Err ParsedIpv6)) t fun v => ∀ r, v = .ok r → r.cidr ≤ 128 := by
  intro h
  cases v with
  | error err => exact .pure _ fun r e => by cases e
  | ok v =>
    refine .pure _ ?_
    rintro r ⟨⟩
    exact h v.1 v.2 rfl

/-- The bits behind the numbers, and the result. -/
theorem ipv6Tail_range (fl : ParseIpv6Flags) (len p l : Nat) (is : List Nat) (slash : Bool)
    (t : St) : Ensures Anyhow (do
      let rest ← if slash ∧ fl.cidr then parseIpv6Cidr fl (p + 1) (l - 1)
        else pure (.ok (128, l))
      match rest with
      | .error err => return .error err
      | .ok (cidr, l) => return .ok ⟨is, cidr, sizeSub len l, l ≠ 0 ∧ fl.only⟩ :
        StateM St (Except ParseIpv6Err ParsedIpv6)) t fun v => ∀ r, v = .ok r → r.cidr ≤ 128 := by
  by_cases hc : slash ∧ fl.cidr
  · rw [if_pos hc]
    exact (parseIpv6Cidr_range fl _ _ t).bind fun v u _ hv => ipv6Result_range len is v u hv
  · rw [if_neg hc]
    refine (Ensures.pure t (Q := fun v => ∀ c l', v = .ok (c, l') → c ≤ 128) ?_).bind
      fun v u _ hv => ipv6Result_range len is v u hv
    rintro c l' ⟨⟩
    exact Nat.le_refl _

/-- A number of bits that `vstr_parse_ipv6` returns is in range. -/
theorem parseIpv6_range (fl : ParseIpv6Flags) (s : St) (pos len : Nat) :
    Ensures Anyhow (parseIpv6 fl pos len) s fun v => ∀ r, v = .ok r → r.cidr ≤ 128 := by
  have hrest : ∀ (p l : Nat) (is : List Nat) (t : St),
      Ensures Anyhow (parseIpv6Rest fl len p l is) t fun v => ∀ r, v = .ok r → r.cidr ≤ 128 := by
    intro p l is t
    unfold parseIpv6Rest
    by_cases hl : l ≠ 0
    · rw [if_pos hl]
      refine (ensures_any _ t).bind fun c u _ _ => ?_
      exact (ensures_any _ u).bind fun slash u' _ _ => ipv6Tail_range fl _ _ _ _ slash u'
    · rw [if_neg hl]
      exact (ensures_any _ t).bind fun slash u' _ _ => ipv6Tail_range fl _ _ _ _ slash u'
  unfold parseIpv6
  dsimp only
  by_cases h2 : len < 2
  · rw [if_pos h2]
    exact .pure _ fun r e => by cases e
  · rw [if_neg h2]
    refine (ensures_any _ s).bind fun sects t _ _ => ?_
    refine (ensures_any _ t).bind fun v u _ _ => ?_
    cases v with
    | error err => exact .pure _ fun r e => by cases e
    | ok r =>
      dsimp only
      by_cases h8 : r.scan ≠ 8
      · rw [if_pos h8]
        refine (ensures_any _ u).bind fun r' u' _ _ => ?_
        by_cases hf : r'.scan ≠ 8 ∧ r'.offNull = 0
        · rw [if_pos hf]
          exact .pure _ fun r e => by cases e
        · rw [if_neg hf]
          exact hrest _ _ _ u'
      · rw [if_neg h8]
        exact hrest _ _ _ u

/-! ## The value -/

/-- What a call has to say: the number of bits when it is in range, an error otherwise. -/
def CidrAnswer {α ε : Type} (max n : Nat) (cidr : α → Nat) (oob : ε) (res : Except ε α) : Prop :=
  if n ≤ max then ∃ r, res = .ok r ∧ cidr r = n else res = .error oob

/-- Wherever the text is, the number of bits behind the IPv4 address is compared by its
value, and returned. -/
def Ipv4CidrExact (fl : ParseIpv4Flags) (q : Ipv4Addr) (n : Nat) : Prop :=
  ∀ (E : Env) (P : Own) (s : St) (pos : Nat),
    Window E P s pos (suffixed q.text n).length ((suffixed q.text n).map some) →
    CidrAnswer 32 n ParsedIpv4.cidr .cidrOob
      ((parseIpv4 fl pos (suffixed q.text n).length).run s).1

/-- Wherever the text is, the number of bits behind the IPv6 address is compared by its
value, and returned. -/
def Ipv6CidrExact (fl : ParseIpv6Flags) (a : Ipv6Addr) (n : Nat) : Prop :=
  ∀ (E : Env) (P : Own) (s : St) (pos : Nat),
    Window E P s pos (suffixed a.text n).length ((suffixed a.text n).map some) →
    CidrAnswer 128 n ParsedIpv6.cidr .cidrOob
      ((parseIpv6 fl pos (suffixed a.text n).length).run s).1

/-- The number of bits wraps to one that is in range. -/
def CidrWraps (max n : Nat) : Prop := 2 ^ 32 ≤ n ∧ n % 2 ^ 32 ≤ max

/-- A number that is read in part is right unless it wraps. -/
theorem answer_iff {α ε : Type} {max n : Nat} {cidr : α → Nat} {f : Nat → α} {oob : ε}
    (hf : ∀ c, cidr (f c) = c) (hmax : max < 2 ^ 32) :
    CidrAnswer max n cidr oob
        (if n % 2 ^ 32 ≤ max then .ok (f (n % 2 ^ 32)) else .error oob) ↔ ¬ CidrWraps max n := by
  unfold CidrAnswer CidrWraps
  by_cases hn : n < 2 ^ 32
  · rw [Nat.mod_eq_of_lt hn]
    refine iff_of_true ?_ fun h => by omega
    by_cases hm : n ≤ max
    · rw [if_pos hm, if_pos hm]
      exact ⟨f n, rfl, hf n⟩
    · rw [if_neg hm, if_neg hm]
  · rw [if_neg (show ¬ n ≤ max by omega)]
    by_cases hm : n % 2 ^ 32 ≤ max
    · rw [if_pos hm]
      exact iff_of_false (fun e => by cases e) fun h => h ⟨by omega, hm⟩
    · rw [if_neg hm]
      exact iff_of_true rfl fun h => hm h.2

/-- The suffix behind an IPv4 address. -/
theorem ipv4_suffixed {fl : ParseIpv4Flags} (q : Ipv4Addr) (hc : fl.cidr = true)
    (hz : fl.zeros = true ∨ q.Plain)
    (w : Window E P s pos len ((suffixed q.text n).map some)) :
    ((parseIpv4 fl pos len).run s).1 = if n % 2 ^ 32 ≤ 32 then
      .ok ⟨[q.a.val, q.b.val, q.c.val, q.d.val], n % 2 ^ 32, len, false⟩ else .error .cidrOob := by
  have hplain : (!fl.zeros) = true → q.Plain := by
    intro h
    refine hz.resolve_left fun h' => ?_
    rw [h'] at h
    cases h
  rw [suffixed, List.map_append] at w
  have hl := w.length
  rw [List.length_append, List.length_map] at hl
  have h : Yields Reads (parseIpv4 fl pos len) s _ := parseIpv4_read
    (octets_four (q.a.read fun h => (hplain h).1) (q.b.read fun h => (hplain h).2.1)
      (q.c.read fun h => (hplain h).2.2.1) (q.d.read fun h => (hplain h).2.2.2) w (by omega)
      (by omega) (by omega) (by omega) (stops_cons fl.loc 10 (by decide)).noDigit)
    fun t r => ipv4Rest_cidr n len _ hc (by
      have wb := (w.reads r).behind
      rwa [List.length_map, show len - q.text.length = ((0x2F :: numText 10 n).map some).length by
        omega] at wb)
  exact h.1

/-- The suffix behind an IPv6 address that is read to its end. -/
theorem ipv6_suffixed {fl : ParseIpv6Flags} (a : Ipv6Addr) (hc : fl.cidr = true)
    (w : Window E P s pos len ((suffixed a.text n).map some)) (hg : a.Grouped) (he : a.Ends) :
    ∃ ips, ((parseIpv6 fl pos len).run s).1 =
      if n % 2 ^ 32 ≤ 128 then .ok ⟨ips, n % 2 ^ 32, len, false⟩ else .error .cidrOob := by
  obtain ⟨front, t, l, ips, h⟩ := a.lastRead w hg
  refine ⟨ips, (h.rest _ fun u q => ?_).1⟩
  rw [suffixed, h.text, List.append_assoc] at w
  rw [h.ends he]
  exact rest_behind (w.reads q) fun w' => rest_number n fl len ips w' hc

/-- The suffix behind an IPv6 address that is not read to its end is not found. -/
theorem ipv6_missed (fl : ParseIpv6Flags) {m : Nat} {pad : List UInt8} (a : Ipv6Addr)
    (w : Window E P s pos len ((suffixed a.text n).map some))
    (w' : Window E P s pos m ((suffixed a.text n ++ pad).map some)) (hg : a.Grouped)
    (he : ¬ a.Ends) (h3 : 3 ≤ (numText 10 n).length + pad.length) (hpad : 0x2F ∉ pad) :
    ∃ r, ((parseIpv6 fl pos len).run s).1 = .ok r ∧ r.cidr = 128 := by
  obtain ⟨front, t, l, ips, h⟩ := a.lastRead w hg
  rw [suffixed, h.text, List.append_assoc] at w
  rw [suffixed, h.text, List.append_assoc front] at w'
  rcases h.misses he with ⟨rfl, x, ys, hx, rfl⟩ | ⟨rfl, h2, h4⟩
  · have hl := w.length
    simp only [List.length_map, List.length_append, List.length_cons] at hl
    rw [← List.append_assoc, List.map_append] at w
    have e : (front ++ 0x30 :: x :: ys).map some =
        (front ++ [0x30]).map some ++ some x :: ys.map some := by simp
    rw [e, List.append_assoc, List.cons_append] at w
    have wb := w.behind
    rw [List.length_map, List.length_append, List.length_singleton, ← Nat.add_assoc] at wb
    have hne : sizeSub (len - (pos + front.length - pos)) 1 ≠ 0 := by
      rw [sizeSub, if_pos (by omega)]
      omega
    have hslash : x ≠ 0x2F := by
      rcases hx with rfl | rfl <;> decide
    exact ⟨_, (h.rest _ fun u q => rest_other fl len ips (wb.reads q) hne hslash).1, rfl⟩
  · obtain ⟨r, hr, hcidr, -⟩ := stale_rest fl ips w w' h2 h4 (by omega) hpad
    exact ⟨r, (h.rest _ hr).1, hcidr⟩

/-- Behind an IPv4 address a number of bits is right unless it wraps. -/
theorem ipv4_cidr_iff {fl : ParseIpv4Flags} {q : Ipv4Addr} (hc : fl.cidr = true)
    (hz : fl.zeros = true ∨ q.Plain) : Ipv4CidrExact fl q n ↔ ¬ CidrWraps 32 n := by
  have hval : ∀ len c, (⟨[q.a.val, q.b.val, q.c.val, q.d.val], c, len, false⟩ : ParsedIpv4).cidr =
      c := fun _ _ => rfl
  constructor
  · intro h
    obtain ⟨P, w⟩ := window_text (suffixed q.text n)
    have h := h alone P _ 1 w
    rw [ipv4_suffixed q hc hz w] at h
    exact (answer_iff (hval _) (by decide)).mp h
  · intro h E P s pos w
    rw [ipv4_suffixed q hc hz w]
    exact (answer_iff (hval _) (by decide)).mpr h

/-- Behind an IPv6 address a number of bits is right where no group is a prefix alone, the
address is read to its end, or the number is the one for all bits, and it does not wrap. -/
theorem ipv6_cidr_iff {fl : ParseIpv6Flags} {a : Ipv6Addr} (hc : fl.cidr = true) :
    Ipv6CidrExact fl a n ↔ a.Grouped ∧ (a.Ends ∨ n = 128) ∧ ¬ CidrWraps 128 n := by
  have hval : ∀ ips len c, (⟨ips, c, len, false⟩ : ParsedIpv6).cidr = c := fun _ _ _ => rfl
  constructor
  · intro h
    have hg : a.Grouped := by
      by_contra hg
      obtain ⟨P, w⟩ := window_text (suffixed a.text n)
      have h := h alone P _ 1 w
      have hs : Yields Reads (parseIpv6 fl 1 _) (written (suffixed a.text n)) _ := a.stuck w hg
      rw [hs.1] at h
      unfold CidrAnswer at h
      split at h
      · obtain ⟨r, hr, -⟩ := h
        cases hr
      · cases h
    have he : a.Ends ∨ n = 128 := by
      by_contra he
      rw [not_or] at he
      obtain ⟨P, w, w'⟩ := window_written (suffixed a.text n) [0x7A, 0x7A, 0x7A]
      obtain ⟨r, hr, hcidr⟩ := ipv6_missed fl a w w' hg he.1
        (by simp only [List.length_cons]; omega) (by decide)
      have h := h alone P _ 1 w
      rw [hr] at h
      unfold CidrAnswer at h
      split at h
      · obtain ⟨r', hr', hn⟩ := h
        obtain rfl := Except.ok.inj hr'
        exact he.2 (hn.symm.trans hcidr)
      · cases h
    refine ⟨hg, he, ?_⟩
    by_cases hend : a.Ends
    · obtain ⟨P, w⟩ := window_text (suffixed a.text n)
      obtain ⟨ips, hs⟩ := ipv6_suffixed a hc w hg hend
      have h := h alone P _ 1 w
      rw [hs] at h
      exact (answer_iff (hval ips _) (by decide)).mp h
    · intro hw
      have := hw.1
      have := he.resolve_left hend
      omega
  · rintro ⟨hg, he, hw⟩ E P s pos w
    by_cases hend : a.Ends
    · obtain ⟨ips, hs⟩ := ipv6_suffixed a hc w hg hend
      rw [hs]
      exact (answer_iff (hval ips _) (by decide)).mpr hw
    · obtain rfl := he.resolve_left hend
      have w' := w
      rw [← List.append_nil (suffixed a.text 128)] at w'
      obtain ⟨r, hr, hcidr⟩ := ipv6_missed fl a w w' hg hend
        (by simp [numText]) (by simp)
      rw [hr, CidrAnswer, if_pos (Nat.le_refl 128)]
      exact ⟨r, rfl, hcidr⟩

/-- Behind every address a number of bits is compared by its value, and returned, exactly
where it does not wrap and the address is read to its end; and only numbers in range are
returned. -/
theorem cidr_exact_iff (fl : ParseIpv4Flags) (fl6 : ParseIpv6Flags) (q : Ipv4Addr)
    (a : Ipv6Addr) (n : Nat) :
    (fl.cidr = true → fl.zeros = true ∨ q.Plain →
        (Ipv4CidrExact fl q n ↔ ¬ CidrWraps 32 n)) ∧
      (fl6.cidr = true →
        (Ipv6CidrExact fl6 a n ↔ a.Grouped ∧ (a.Ends ∨ n = 128) ∧ ¬ CidrWraps 128 n)) ∧
      ∀ (s : St) (pos len : Nat),
        (∀ r, fl.netmask = false → ((parseIpv4 fl pos len).run s).1 = .ok r → r.cidr ≤ 32) ∧
        ∀ r, ((parseIpv6 fl6 pos len).run s).1 = .ok r → r.cidr ≤ 128 :=
  ⟨fun hc hz => ipv4_cidr_iff hc hz, fun hc => ipv6_cidr_iff hc, fun s pos len =>
    ⟨fun r hm => (parseIpv4_range hm s pos len).1 r, fun r => (parseIpv6_range fl6 s pos len).1 r⟩⟩

/-- The flags of an address with a number of bits. -/
def cidrFlags : ParseIpv4Flags where
  loc := false
  zeros := false
  full := true
  cidr := true
  cidrFull := false
  netmask := false
  netmaskFull := false
  only := false

/-- The address `1.2.3.4`. -/
def oneToFour : Ipv4Addr where
  a := ⟨0, 1, by decide⟩
  b := ⟨0, 2, by decide⟩
  c := ⟨0, 3, by decide⟩
  d := ⟨0, 4, by decide⟩

/-- A group of one digit. -/
def HexGroup.one (d : Fin 16) : HexGroup where
  text := [digitChr d]
  digit := by
    intro c hc
    obtain rfl := List.mem_singleton.mp hc
    revert d
    decide
  ne_nil := List.cons_ne_nil _ _
  length_le := Nat.le_of_ble_eq_true rfl

/-- The address `1:2:3:4:5:6:` with a group and a null field behind it. -/
def sevenGroups (g : HexGroup) : Ipv6Addr :=
  .nullEnd (.one 1 :: .one 2 :: .one 3 :: .one 4 :: .one 5 :: .one 6 :: [g]) (Nat.le_refl 7)

/-- The number of bits behind `1.2.3.4/24` and behind `1:2:3:4:5:6:7::/64`. -/
theorem cidr_exact_short :
    (∃ r, ((parseIpv4 cidrFlags 1 10).run (written (suffixed oneToFour.text 24))).1 = .ok r ∧
      r.cidr = 24 ∧ r.cidr ≤ 32) ∧
    ∃ r, ((parseIpv6 ⟨false, true, false, false⟩ 1 18).run
        (written (suffixed (sevenGroups (.one 7)).text 64))).1 = .ok r ∧
      r.cidr = 64 ∧ r.cidr ≤ 128 := by
  constructor
  · have hlen : (suffixed oneToFour.text 24).length = 10 := by decide
    obtain ⟨P, w⟩ := window_text (suffixed oneToFour.text 24)
    obtain ⟨h4, -, hr⟩ := cidr_exact_iff cidrFlags ⟨false, true, false, false⟩ oneToFour
      (sevenGroups (.one 7)) 24
    have hx := (h4 rfl (.inr ⟨rfl, rfl, rfl, rfl⟩)).mpr
      (fun h => absurd h.1 (by decide)) alone P _ 1 w
    rw [CidrAnswer, if_pos (by decide), hlen] at hx
    obtain ⟨r, hok, hn⟩ := hx
    exact ⟨r, hok, hn, (hr _ 1 10).1 r rfl hok⟩
  · have hlen : (suffixed (sevenGroups (.one 7)).text 64).length = 18 := by decide
    have hone : ∀ g ∈ (sevenGroups (.one 7)).groups, g.text.length = 1 := by decide
    obtain ⟨P, w⟩ := window_text (suffixed (sevenGroups (.one 7)).text 64)
    have hg : (sevenGroups (.one 7)).Grouped := by
      rintro g hg ⟨x, -, ht⟩
      have := hone g hg
      rw [ht] at this
      cases this
    have hends : (sevenGroups (.one 7)).Ends := fun _ g hg =>
      .inr (hone g (List.mem_of_getLast? hg))
    obtain ⟨-, h6, hr⟩ := cidr_exact_iff cidrFlags ⟨false, true, false, false⟩ oneToFour
      (sevenGroups (.one 7)) 64
    have hx := (h6 rfl).mpr
      ⟨hg, .inl hends, fun h => absurd h.1 (by decide)⟩ alone P _ 1 w
    rw [CidrAnswer, if_pos (by decide), hlen] at hx
    obtain ⟨r, hok, hn⟩ := hx
    exact ⟨r, hok, hn, (hr _ 1 18).2 r hok⟩

/-- The group `10`. -/
def ten : HexGroup where
  text := [0x31, 0x30]
  digit := List.forall_mem_cons.mpr ⟨by decide, List.forall_mem_singleton.mpr (by decide)⟩
  ne_nil := List.cons_ne_nil _ _
  length_le := by decide

/-- The number of bits behind `1.2.3.4/4294967328` is read as 32, and the one behind
`1:2:3:4:5:6:10::/100` is not found. -/
theorem cidr_wraps :
    (∃ P, Window alone P (written (suffixed oneToFour.text 4294967328)) 1 18
      ((suffixed oneToFour.text 4294967328).map some)) ∧
    ((parseIpv4 cidrFlags 1 18).run (written (suffixed oneToFour.text 4294967328))).1 =
      .ok ⟨[1, 2, 3, 4], 32, 18, false⟩ ∧
    (∃ P, Window alone P (written (suffixed (sevenGroups ten).text 100)) 1 20
      ((suffixed (sevenGroups ten).text 100).map some)) ∧
    ∃ r, ((parseIpv6 ⟨false, true, false, false⟩ 1 20).run
      (written (suffixed (sevenGroups ten).text 100))).1 = .ok r ∧ r.cidr = 128 := by
  have hlen4 : (suffixed oneToFour.text 4294967328).length = 18 := by decide
  have hlen6 : (suffixed (sevenGroups ten).text 100).length = 20 := by decide
  obtain ⟨P, w⟩ := window_text (suffixed oneToFour.text 4294967328)
  obtain ⟨P', w'⟩ := window_text (suffixed (sevenGroups ten).text 100)
  rw [hlen4] at w
  rw [hlen6] at w'
  refine ⟨⟨P, w⟩, ?_, ⟨P', w'⟩, ?_⟩
  · exact ipv4_suffixed oneToFour rfl (.inr ⟨rfl, rfl, rfl, rfl⟩) w
  · have hmem : ∀ g ∈ (sevenGroups ten).groups, g.text ≠ [0x30, 0x62] ∧ g.text ≠ [0x30, 0x42] := by
      decide
    have hg : (sevenGroups ten).Grouped := by
      rintro g hg ⟨x, rfl | rfl, ht⟩
      · exact (hmem g hg).1 ht
      · exact (hmem g hg).2 ht
    have hends : ¬ (sevenGroups ten).Ends := by
      intro h
      rcases h rfl ten rfl with ⟨x, y, ys, -, -, h⟩ | h
      · cases h
      · cases h
    have w2 := w'
    rw [← List.append_nil (suffixed (sevenGroups ten).text 100)] at w2
    exact ipv6_missed _ _ w' w2 hg hends (by decide) (by decide)

end Vstr
