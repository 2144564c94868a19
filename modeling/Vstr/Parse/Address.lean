import Vstr.Parse.IpAgree

/-!
# Texts of addresses

What an IPv4 and an IPv6 address may look like, and what the parsers of numbers read from
the parts of one.
-/

namespace Vstr

open Memory Splice Query

variable {loc nz : Bool} {rest : List (Option UInt8)} {n : Nat} {c : UInt8}

/-! ## Numbers of an IPv4 address -/

/-- A number of an IPv4 address: at most three digits, which may begin with zeros. -/
structure Octet where
  /-- The leading zeros. -/
  zeros : Nat
  /-- The number. -/
  val : Fin 256
  /-- There are no more than three digits. -/
  fits : zeros + (numText 10 val).length ≤ 3

/-- Its text. -/
def Octet.text (o : Octet) : List UInt8 := List.replicate o.zeros 0x30 ++ numText 10 o.val

/-- It is read, where leading zeros are allowed or there are none. -/
theorem Octet.read (o : Octet) (h : nz = true → o.zeros = 0) :
    OctetRead loc nz o.text o.val where
  ne_nil := by simp [Octet.text, numText_ne_nil]
  length_le := by
    rw [Octet.text, List.length_append, List.length_replicate]
    exact o.fits
  digit c hc := by
    rcases List.mem_append.mp hc with hc | hc
    · exact ⟨0, by decide, List.eq_of_mem_replicate hc⟩
    · exact mem_numText (.inl rfl) hc
  read {rest} hr pos := by
    have hv := o.val.isLt
    have hten : TextBase 10 := .inl rfl
    by_cases hz : o.zeros = 0
    · have ht : o.text = numText 10 o.val := by rw [Octet.text, hz]; rfl
      rw [ht]
      exact ufuncOf_decimal loc nz (by omega) hr pos
    · obtain rfl : nz = false := by
        cases nz with
        | false => rfl
        | true => exact absurd (h rfl) hz
      by_cases h0 : o.val.val = 0
      · have ht : o.text = List.replicate (o.zeros + 1) 0x30 := by
          rw [Octet.text, h0, List.replicate_succ']
          rfl
        rw [ht, List.length_replicate, h0]
        exact ufuncOf_zeros (hten.plain loc false) 32 pos (.inr rfl) hr (hr.notAmong_zero hten)
          (fun _ h => by rcases h with h | h <;> cases h) (.inl (by omega))
      · have hlt : ∀ d ∈ digitList 10 o.val, d < 10 := fun d hd => digitList_lt hten hd
        have h := ufuncOf_number (k := o.zeros) (hten.plain loc false) 32 pos (.inr rfl)
          (allDigits_map hten loc hlt) hr (notAmong_digitList hten h0)
          (fun _ h => by rcases h with h | h <;> cases h) (.inl hz)
        rw [digitsVal, show (ipNumFlags 10 loc false).loc = loc from rfl,
          map_digitChr hten loc hlt, value_digitList,
          Nat.mod_eq_of_lt (show o.val.val < 2 ^ 32 by omega)] at h
        rw [Octet.text, numText_eq h0, List.map_append, List.append_assoc, List.length_append,
          List.length_replicate]
        exact h

/-- The four numbers of an IPv4 address. -/
structure Ipv4Addr where
  /-- The first. -/
  a : Octet
  /-- The second. -/
  b : Octet
  /-- The third. -/
  c : Octet
  /-- The fourth. -/
  d : Octet

/-- The text of an IPv4 address. -/
def Ipv4Addr.text (q : Ipv4Addr) : List UInt8 := octetsText q.a.text q.b.text q.c.text q.d.text

/-- No number has leading zeros. -/
def Ipv4Addr.Plain (q : Ipv4Addr) : Prop :=
  q.a.zeros = 0 ∧ q.b.zeros = 0 ∧ q.c.zeros = 0 ∧ q.d.zeros = 0

/-! ## Groups of an IPv6 address -/

/-- A hexadecimal digit. -/
def HexDigit (c : UInt8) : Prop :=
  (0x30 ≤ c.toNat ∧ c.toNat ≤ 0x39) ∨ (0x41 ≤ c.toNat ∧ c.toNat ≤ 0x46) ∨
    (0x61 ≤ c.toNat ∧ c.toNat ≤ 0x66)

instance : DecidablePred HexDigit := fun _ => inferInstanceAs (Decidable (_ ∨ _))

/-- The parser knows it. -/
theorem HexDigit.asciiDigit (h : HexDigit c) (loc : Bool) :
    ∃ d < 16, asciiDigit loc 16 c = some d := by
  rw [asciiDigit_eq (by decide)]
  unfold Vstr.asciiDigit
  rw [if_neg Bool.false_ne_true]
  dsimp only
  rw [if_neg (show ¬ 16 ≤ 10 by decide), if_neg (show ¬ 16 ≤ 10 by decide),
    if_pos (show 16 > 10 by decide), if_pos (show 16 > 10 by decide)]
  rcases h with h | h | h
  · exact ⟨c.toNat - 0x30, by omega, by rw [if_neg (by omega), if_pos (by omega)]⟩
  · refine ⟨10 + (c.toNat - 0x41), by omega, ?_⟩
    rw [if_neg (by omega), if_neg (by omega), if_pos (by omega)]
  · refine ⟨10 + (c.toNat - 0x61), by omega, ?_⟩
    rw [if_neg (by omega), if_neg (by omega), if_neg (by omega), if_pos (by omega)]

/-- It is no separator. -/
theorem HexDigit.ne (h : HexDigit c) : c ≠ 0x3A ∧ c ≠ 0x2F ∧ c ≠ 0x2E := by
  refine ⟨?_, ?_, ?_⟩ <;>
  · rintro rfl
    revert h
    decide

/-- The letter `B`. -/
def LetterB (c : UInt8) : Prop := c = 0x62 ∨ c = 0x42

instance : DecidablePred LetterB := fun _ => inferInstanceAs (Decidable (_ ∨ _))

/-- Of the letters of a prefix only `B` is a digit. -/
theorem HexDigit.letterB (h : HexDigit c) (hc : c ∈ prefixLetters) : LetterB c := by
  simp only [prefixLetters, List.mem_cons, List.not_mem_nil, or_false] at hc
  rcases hc with rfl | rfl | hc
  · exact absurd h (by decide)
  · exact absurd h (by decide)
  · exact hc

/-- A group of an IPv6 address: at most four hexadecimal digits. -/
structure HexGroup where
  /-- The digits. -/
  text : List UInt8
  /-- They are hexadecimal. -/
  digit : ∀ c ∈ text, HexDigit c
  /-- There is one. -/
  ne_nil : text ≠ []
  /-- There are at most four. -/
  length_le : text.length ≤ 4

/-- It is a prefix of a binary number and nothing else. -/
def HexGroup.Alone (g : HexGroup) : Prop := ∃ x, LetterB x ∧ g.text = [0x30, x]

/-- It has another letter `B` behind such a prefix. -/
def HexGroup.Twice (g : HexGroup) : Prop :=
  ∃ x y ys, LetterB x ∧ LetterB y ∧ g.text = 0x30 :: x :: y :: ys

/-- What digits do not begin with, and what is behind them does not. -/
theorem notAmong_hex {chrs ds : List UInt8} (h : ∀ c, ds.head? = some c → c ∉ chrs)
    (hr : NotAmong chrs rest) : NotAmong chrs (ds.map some ++ rest) := by
  cases ds with
  | nil => exact hr
  | cons c ds =>
    intro c' hc'
    obtain rfl := Option.some.inj (Option.some.inj hc')
    exact h c rfl

/-- Hexadecimal digits are digits. -/
theorem allDigits_hex {ds : List UInt8} (h : ∀ c ∈ ds, HexDigit c) : AllDigits loc 16 ds := by
  intro c hc
  obtain ⟨d, -, e⟩ := (h c hc).asciiDigit loc
  rw [e]
  rfl

/-- Four digits are a group. -/
theorem digitsVal_hex (loc : Bool) {ds : List UInt8} (h : ∀ c ∈ ds, HexDigit c)
    (h4 : ds.length ≤ 4) : digitsVal loc 16 ds % 2 ^ 32 ≤ 0xFFFF := by
  have hlt : ∀ d ∈ ds.map (fun c => (asciiDigit loc 16 c).getD 0), d < 16 := by
    intro d hd
    obtain ⟨c, hc, rfl⟩ := List.mem_map.mp hd
    obtain ⟨d, hd, e⟩ := (h c hc).asciiDigit loc
    rwa [e]
  have hv : digitsVal loc 16 ds < 16 ^ 4 :=
    calc digitsVal loc 16 ds < 16 ^ (ds.map fun c => (asciiDigit loc 16 c).getD 0).length :=
          Numeral.value_lt hlt
      _ ≤ 16 ^ 4 := Nat.pow_le_pow_right (by decide) (by rwa [List.length_map])
  exact (Nat.mod_le _ _).trans (by omega)

/-- Nothing among the letters `B` begins the bytes. -/
theorem spanOf_letterB (h : ∀ c, rest.head? = some (some c) → ¬ LetterB c) :
    spanOf [0x62, 0x42] rest = 0 := by
  refine (spanOf_zero fun c hc hmem => h c hc ?_).symm
  rcases List.mem_cons.mp hmem with h | h
  · exact .inl h
  · exact .inr (List.mem_singleton.mp h)

/-- A group that begins like a prefix is read to its end, or one character of it is. -/
theorem HexGroup.read_prefix (g : HexGroup) {x : UInt8} {ys : List UInt8} (hx : LetterB x)
    (ht : g.text = 0x30 :: x :: ys) (hr : Stops loc 16 rest) (h : rest = [] → ¬ g.Alone) :
    ∃ v l, v ≤ 0xFFFF ∧ 1 ≤ l ∧ l ≤ 4 ∧ (g.Twice → l = 1) ∧ (¬ g.Twice → l = g.text.length) ∧
      ∀ pos, (ufuncOf 32 (ipNumFlags 16 loc false) pos (g.text.map some ++ rest)).num = v ∧
        (ufuncOf 32 (ipNumFlags 16 loc false) pos (g.text.map some ++ rest)).len = l := by
  have h4 := g.length_le
  by_cases hy : ∃ y zs, LetterB y ∧ ys = y :: zs
  · obtain ⟨y, zs, hy, rfl⟩ := hy
    refine ⟨0, 1, by decide, by decide, by decide, fun _ => rfl, fun hno => ?_, fun pos => ?_⟩
    · exact absurd ⟨x, y, zs, hx, hy, ht⟩ hno
    · rw [ht]
      exact ufuncOf_prefix_twice loc hx hy pos
  · have htwice : ¬ g.Twice := by
      rintro ⟨x', y, zs, -, hy', e⟩
      rw [ht] at e
      exact hy ⟨y, zs, hy', (List.cons.inj (List.cons.inj e).2).2⟩
    obtain ⟨k, ds, rfl, hhead⟩ := exists_zeros ys
    rw [ht, List.length_cons, List.length_cons, List.length_append, List.length_replicate] at h4
    have hds : ∀ c ∈ ds, HexDigit c := fun c hc => g.digit c (by rw [ht]; simp [hc])
    have hzero : NotAmong [0x30] (ds.map some ++ rest) := by
      refine notAmong_hex (fun c hc hmem => hhead ?_) (hr.noDigit.notAmong_zero (.inr rfl))
      rw [hc, List.mem_singleton.mp hmem]
    have hspan : spanOf [0x62, 0x42]
        ((List.replicate k 0x30).map some ++ (ds.map some ++ rest)) = 0 := by
      rw [← List.append_assoc, ← List.map_append]
      refine spanOf_letterB fun c hc hB => ?_
      cases hys : List.replicate k 0x30 ++ ds with
      | nil =>
        rw [hys] at hc
        refine hr.noPrefix c hc ?_
        rcases hB with rfl | rfl <;> decide
      | cons y zs =>
        rw [hys] at hc
        obtain rfl := Option.some.inj (Option.some.inj hc)
        exact hy ⟨y, zs, hB, hys⟩
    have hne : (List.replicate k (0x30 : UInt8)).map some ++ (ds.map some ++ rest) ≠ [] := by
      intro e
      rw [← List.append_assoc, ← List.map_append] at e
      obtain ⟨h1, h2⟩ := List.append_eq_nil_iff.mp e
      refine h h2 ⟨x, hx, ?_⟩
      rw [ht, List.map_eq_nil_iff.mp h1]
    have hu : ∀ pos, _ := fun pos =>
      ufuncOf_behind_prefix loc hx (allDigits_hex hds) hr.noDigit hzero hspan hne pos
    have hlen : g.text.length = 2 + k + ds.length := by
      rw [ht]
      simp only [List.length_cons, List.length_append, List.length_replicate]
      omega
    refine ⟨_, 2 + k + ds.length, digitsVal_hex loc hds (by omega), by omega, by omega,
      fun h => absurd h htwice, fun _ => hlen.symm, fun pos => ?_⟩
    have htext : g.text.map some ++ rest = some 0x30 :: some x ::
        ((List.replicate k 0x30).map some ++ (ds.map some ++ rest)) := by
      rw [ht]
      simp
    rw [htext]
    exact hu pos

/-- What is read of a group. -/
theorem HexGroup.read (g : HexGroup) (hr : Stops loc 16 rest) (h : rest = [] → ¬ g.Alone) :
    ∃ v l, v ≤ 0xFFFF ∧ 1 ≤ l ∧ l ≤ 4 ∧ (g.Twice → l = 1) ∧ (¬ g.Twice → l = g.text.length) ∧
      ∀ pos, (ufuncOf 32 (ipNumFlags 16 loc false) pos (g.text.map some ++ rest)).num = v ∧
        (ufuncOf 32 (ipNumFlags 16 loc false) pos (g.text.map some ++ rest)).len = l := by
  by_cases hpre : ∃ x ys, LetterB x ∧ g.text = 0x30 :: x :: ys
  · obtain ⟨x, ys, hx, ht⟩ := hpre
    exact g.read_prefix hx ht hr h
  · have h4 := g.length_le
    have h1 := List.length_pos_iff.mpr g.ne_nil
    have htwice : ¬ g.Twice := by
      rintro ⟨x, y, ys, hx, -, e⟩
      exact hpre ⟨x, y :: ys, hx, e⟩
    obtain ⟨k, ds, ht, hhead⟩ := exists_zeros g.text
    have hlen : g.text.length = k + ds.length := by
      rw [ht, List.length_append, List.length_replicate]
    have hds : ∀ c ∈ ds, HexDigit c := fun c hc => g.digit c (by rw [ht]; simp [hc])
    have hzero : NotAmong [0x30] (ds.map some ++ rest) := by
      refine notAmong_hex (fun c hc hmem => hhead ?_) (hr.noDigit.notAmong_zero (.inr rfl))
      rw [hc, List.mem_singleton.mp hmem]
    have hp : k = 1 → 16 = 16 ∨ 16 = 2 → NotAmong prefixLetters (ds.map some ++ rest) := by
      rintro rfl -
      refine notAmong_hex (fun c hc hmem => ?_) hr.noPrefix
      obtain ⟨ys, rfl⟩ := List.head?_eq_some_iff.mp hc
      exact hpre ⟨c, ys, (hds c List.mem_cons_self).letterB hmem, ht⟩
    have hne : k ≠ 0 ∨ ds.map some ++ rest ≠ [] := by
      by_cases hk : k = 0
      · refine .inr fun e => ?_
        have := congrArg List.length (List.append_eq_nil_iff.mp e).1
        rw [List.length_map, List.length_nil] at this
        omega
      · exact .inl hk
    have hu : ∀ pos, _ := fun pos => ufuncOf_number (plain_sixteen loc false) 32 pos (.inr rfl)
      (allDigits_hex hds) hr.noDigit hzero hp hne
    refine ⟨_, k + ds.length, digitsVal_hex loc hds (by omega), by omega, by omega,
      fun h => absurd h htwice, fun _ => hlen.symm, fun pos => ?_⟩
    have htext : g.text.map some ++ rest = (List.replicate k 0x30).map some ++
        (ds.map some ++ rest) := by
      conv_lhs => rw [ht]
      rw [List.map_append, List.append_assoc]
    rw [htext]
    exact hu pos

/-- A group as the loop of `vstr_parse_ipv6` sees it, with or without a suffix behind it. -/
def HexGroup.field (loc : Bool) (cidr : Option Nat) (g : HexGroup) : HexRead where
  text := g.text ++ suffixText cidr
  val := (ufuncOf 32 (ipNumFlags 16 loc false) 0 ((g.text ++ suffixText cidr).map some)).num
  len := (ufuncOf 32 (ipNumFlags 16 loc false) 0 ((g.text ++ suffixText cidr).map some)).len

/-- It is read, unless it is a prefix alone. -/
theorem HexGroup.field_ok (g : HexGroup) (loc : Bool) (cidr : Option Nat)
    (h : cidr = none → ¬ g.Alone) :
    (g.field loc cidr).Ok loc ∧ (g.Twice → (g.field loc cidr).len = 1) ∧
      (¬ g.Twice → (g.field loc cidr).len = g.text.length) := by
  have hrest : (suffixText cidr).map some = [] → ¬ g.Alone := by
    cases cidr with
    | none => exact fun _ => h rfl
    | some c => exact fun e => by cases e
  obtain ⟨v, l, hv, h1, h4, ht, hf, hu⟩ := g.read (stops_suffix loc 16 cidr) hrest
  rw [← List.map_append] at hu
  have hval : (g.field loc cidr).val = v := (hu 0).1
  have hlen : (g.field loc cidr).len = l := (hu 0).2
  refine ⟨⟨fun pos => ?_, fun pos => ?_, by omega, by omega, by omega⟩,
    fun h => hlen.trans (ht h), fun h => hlen.trans (hf h)⟩
  · rw [hval]
    exact (hu pos).1
  · rw [hlen]
    exact (hu pos).2

/-- Groups that are not prefixes alone are read. -/
theorem fields_ok {gs : List HexGroup} (loc : Bool) (h : ∀ g ∈ gs, ¬ g.Alone) :
    ∀ f ∈ gs.map (HexGroup.field loc none), f.Ok loc := by
  intro f hf
  obtain ⟨g, hg, rfl⟩ := List.mem_map.mp hf
  exact (g.field_ok loc none fun _ => h g hg).1

@[simp] theorem map_text_field (loc : Bool) (gs : List HexGroup) :
    (gs.map (HexGroup.field loc none)).map HexRead.text = gs.map HexGroup.text := by
  rw [List.map_map]
  exact List.map_congr_left fun g _ => List.append_nil _

/-! ## IPv6 addresses -/

/-- What an IPv6 address ends with. -/
inductive Ipv6Last where
  /-- A group. -/
  | group (g : HexGroup)
  /-- An IPv4 address, in the place of two groups. -/
  | ipv4 (a b c d : Fin 256)

/-- Its text. -/
def Ipv6Last.text : Ipv6Last → List UInt8
  | .group g => g.text
  | .ipv4 a b c d => ipv4Text a b c d

/-- The groups it stands for. -/
def Ipv6Last.count : Ipv6Last → Nat
  | .group _ => 1
  | .ipv4 .. => 2

theorem Ipv6Last.one_le_count (last : Ipv6Last) : 1 ≤ last.count := by
  cases last with
  | group g => exact Nat.le_refl 1
  | ipv4 a b c d => exact Nat.le_succ 1

/-- The forms of an IPv6 address. -/
inductive Ipv6Addr where
  /-- All groups. -/
  | full (fs : List HexGroup) (last : Ipv6Last) (h : fs.length + last.count = 8)
  /-- Groups on both sides of a null field, or behind it. -/
  | null (fs gs : List HexGroup) (last : Ipv6Last) (h : fs.length + gs.length + last.count ≤ 7)
  /-- Groups before a null field, or the null field alone. -/
  | nullEnd (fs : List HexGroup) (h : fs.length ≤ 7)

/-- The text of an IPv6 address. -/
def Ipv6Addr.text : Ipv6Addr → List UInt8
  | .full fs last _ => closed 0x3A (fs.map HexGroup.text) ++ last.text
  | .null fs gs last _ => nullText (fs.map HexGroup.text) ++
      closed 0x3A (gs.map HexGroup.text) ++ last.text
  | .nullEnd fs _ => nullText (fs.map HexGroup.text)

/-- The groups with a separator behind them. -/
def Ipv6Addr.groups : Ipv6Addr → List HexGroup
  | .full fs _ _ => fs
  | .null fs gs _ _ => fs ++ gs
  | .nullEnd fs _ => fs

/-- No group with a separator behind it is a prefix alone. -/
def Ipv6Addr.Grouped (a : Ipv6Addr) : Prop := ∀ g ∈ a.groups, ¬ g.Alone

/-- The group at the end has no two letters of a prefix. -/
def Ipv6Last.Ends : Ipv6Last → Prop
  | .group g => ¬ g.Twice
  | .ipv4 .. => True

/-- The length of what is read last is that of what stands last: for a null field behind
seven groups it is the length that was read of the seventh. -/
def Ipv6Addr.Ends : Ipv6Addr → Prop
  | .full _ last _ | .null _ _ last _ => last.Ends
  | .nullEnd fs _ => fs.length = 7 → ∀ g ∈ fs.getLast?, g.Twice ∨ g.text.length = 1

/-- The text of an address and a number of bits. -/
def suffixed (text : List UInt8) (n : Nat) : List UInt8 := text ++ 0x2F :: numText 10 n

section

variable {E : Env} {P : Own} {s : St} {pos len num off nl : Nat} {done : List Nat}
  {fl : ParseIpv6Flags}

/-! ## A prefix alone -/

/-- A prefix alone ends the loop. -/
theorem loop_alone {xs ys : List Sect} {gs : List HexGroup}
    (hold : Holds E P s xs (gs.map HexGroup.text)) (h : ∃ g ∈ gs, g.Alone)
    (h8 : done.length + gs.length ≤ 8) (hnum : done.length + gs.length < num) :
    Yields Reads (parseIpv6Loop (ipNumFlags 16 loc false) num (xs ++ ys) (.having off nl done)) s
      (.error .ipv6Oob) := by
  induction gs generalizing s xs nl done with
  | nil =>
    obtain ⟨g, hg, -⟩ := h
    cases hg
  | cons g gs ih =>
    rw [List.length_cons] at h8 hnum
    cases hold with
    | cons w hold =>
      rename_i x xs
      by_cases hg : g.Alone
      · obtain ⟨b, hb, ht⟩ := hg
        rw [ht] at w
        have hl := w.length
        rw [List.length_map, List.length_cons, List.length_cons, List.length_nil] at hl
        rw [List.cons_append, parseIpv6Loop, if_neg (by omega)]
        refine (parseNumUfunc_yields w 32 _).bind fun t r => ?_
        have hlen : (ufuncOf 32 (ipNumFlags 16 loc false) x.pos ([0x30, b].map some)).len = 0 :=
          ufuncOf_prefix_alone loc hb x.pos
        have hscan : (Ipv6Loop.having off nl done).scan = done.length := rfl
        rw [hlen, if_neg (by omega), if_pos (.inr (.inl rfl))]
        exact .pure _ _
      · have hok := (g.field_ok loc none fun _ => hg).1
        have ht : (g.field loc none).text = g.text := List.append_nil _
        rw [← ht] at w
        refine loop_field w hok (by omega) fun t r => ?_
        obtain ⟨g', hg', ha⟩ := h
        refine ih (Holds.reads hold r) ⟨g', ?_, ha⟩ ?_ ?_
        · rcases List.mem_cons.mp hg' with rfl | hg'
          · exact absurd ha hg
          · exact hg'
        · rw [List.length_append, List.length_singleton]
          omega
        · rw [List.length_append, List.length_singleton]
          omega

/-- Groups are fields. -/
theorem fields_groups (gs : List HexGroup) : Fields 0x3A (gs.map HexGroup.text) := by
  intro t ht
  obtain ⟨g, -, rfl⟩ := List.mem_map.mp ht
  exact ⟨g.ne_nil, fun h => (g.digit _ h).ne.1 rfl⟩

/-- A group and a suffix are a field, and no IPv4 address. -/
theorem HexGroup.clean (g : HexGroup) (cidr : Option Nat) :
    Clean (g.text ++ suffixText cidr) ∧ 0x2E ∉ g.text ++ suffixText cidr := by
  have hne := g.ne_nil
  refine ⟨⟨by simp [hne], fun h => ?_⟩, fun h => ?_⟩
  · rcases List.mem_append.mp h with h | h
    · exact (g.digit _ h).ne.1 rfl
    · rcases mem_suffixText h with h | ⟨d, hd, h⟩
      · cases h
      · exact (digitChr_eq hd).2.2.1 h.symm
  · rcases List.mem_append.mp h with h | h
    · exact (g.digit _ h).ne.2.2 rfl
    · exact suffixText_dot cidr (List.mem_map.mpr ⟨_, h, rfl⟩)

/-- The end of an address and a suffix are a field. -/
theorem Ipv6Last.clean (last : Ipv6Last) (cidr : Option Nat) :
    Clean (last.text ++ suffixText cidr) := by
  cases last with
  | group g => exact (g.clean cidr).1
  | ipv4 a b c d => exact clean_ipv4 _ _ _ _

/-- The loop ends with an error, and so does the call. -/
theorem parse_stuck {sects : List Sect} (h2 : 2 ≤ len)
    (hsects : Yields Reads (parseIpv6Sects pos len) s sects)
    (hloop : ∀ t, Reads s t → Yields Reads (parseIpv6Loop (ipNumFlags 16 fl.loc false)
      sects.length sects (.having 0 0 [])) t (.error .ipv6Oob)) :
    Yields Reads (parseIpv6 fl pos len) s (.error .ipv6Oob) := by
  unfold parseIpv6
  dsimp only
  rw [if_neg (by omega)]
  refine hsects.bind fun t q => ?_
  exact (hloop t q).bind fun u _ => .pure _ _

/-- A prefix alone before the last part of an address without a null field. -/
theorem full_stuck {fs : List HexGroup} {z : List UInt8}
    (w : Window E P s pos len ((closed 0x3A (fs.map HexGroup.text) ++ z).map some))
    (hz : Clean z) (h7 : fs.length ≤ 7) (h : ∃ g ∈ fs, g.Alone) :
    Yields Reads (parseIpv6 fl pos len) s (.error .ipv6Oob) := by
  have hf := fields_groups fs
  have hl := w.length
  have hc := hf.length_closed
  have hz1 := List.length_pos_iff.mpr hz.ne_nil
  obtain ⟨g, hg, ha⟩ := h
  have hfs := List.length_pos_iff.mpr (List.ne_nil_of_mem hg)
  rw [List.length_map] at hc
  rw [List.length_map, List.length_append] at hl
  refine parse_stuck (by omega) (groups_sects w (by omega) hf hz (by simpa using h7)) fun t r => ?_
  rw [List.map_append] at w
  refine loop_alone ((holds_closed w).reads r) ⟨g, hg, ha⟩ (by rw [List.length_nil]; omega) ?_
  simp

/-- A prefix alone before the last part of an address with a null field. -/
theorem null_stuck {fs gs : List HexGroup} {z : List UInt8}
    (w : Window E P s pos len ((nullText (fs.map HexGroup.text) ++
      closed 0x3A (gs.map HexGroup.text) ++ z).map some))
    (hz : Clean z) (h6 : fs.length + gs.length ≤ 6) (h : ∃ g ∈ fs ++ gs, g.Alone) :
    Yields Reads (parseIpv6 fl pos len) s (.error .ipv6Oob) := by
  have hl := w.length
  have hlen : 2 ≤ len := by
    have := (fields_groups fs).length_nullText
    rw [List.length_map, List.length_append, List.length_append] at hl
    omega
  obtain ⟨hsects, hold, hold'⟩ :=
    null_sects w (fields_groups fs) (fields_groups gs) hz (by simpa using h6)
  refine parse_stuck hlen hsects fun t r => ?_
  rw [List.append_assoc]
  by_cases hfs : ∃ g ∈ fs, g.Alone
  · refine loop_alone (hold.reads r) hfs (by rw [List.length_nil]; omega) ?_
    simp
  · have hok := fields_ok fl.loc fun g hg ha => hfs ⟨g, hg, ha⟩
    have hold : Holds E P t (fieldsAt pos (fs.map HexGroup.text))
        ((fs.map (HexGroup.field fl.loc none)).map HexRead.text) := by
      rw [map_text_field]
      exact hold.reads r
    refine loop_fields hold hok (by simp; omega) fun u q => ?_
    rw [List.cons_append]
    refine loop_null (by simp; omega) ?_
    refine loop_alone (hold'.reads (IsTrans.trans _ _ _ r q)) ?_ (by simp; omega) (by simp; omega)
    obtain ⟨g, hg, ha⟩ := h
    rcases List.mem_append.mp hg with hg | hg
    · exact absurd ⟨g, hg, ha⟩ hfs
    · exact ⟨g, hg, ha⟩

/-- A prefix alone among seven groups before a null field. -/
theorem null_full_stuck {fs : List HexGroup}
    (w : Window E P s pos len
      ((closed 0x3A (fs.map HexGroup.text) ++ 0x3A :: suffixText (some n)).map some))
    (h7 : fs.length = 7) (h : ∃ g ∈ fs, g.Alone) :
    Yields Reads (parseIpv6 fl pos len) s (.error .ipv6Oob) := by
  have hf := fields_groups fs
  have hl := w.length
  have hc := hf.length_closed
  rw [List.length_map] at hc
  rw [List.length_map, List.length_append] at hl
  have hj : joinGroups 0x3A [suffixText (some n)] = suffixText (some n) := by simp [joinGroups]
  have wj := w
  rw [← hj] at wj
  have hfg : Fields 0x3A [suffixText (some n)] := by
    intro g hg
    obtain rfl := List.mem_singleton.mp hg
    exact ⟨(clean_suffix n).ne_nil, (clean_suffix n).colon⟩
  refine parse_stuck (by omega) (sects_full wj hf hfg (by simp) (by simpa using h7)) fun t r => ?_
  rw [List.map_append] at w
  refine loop_alone ((holds_closed w).reads r) h (by rw [List.length_nil]; omega) ?_
  simp

/-- The text of seven groups and a null field. -/
theorem nullText_groups {fs : List HexGroup} (h : fs ≠ []) : nullText (fs.map HexGroup.text) =
    closed 0x3A (fs.map HexGroup.text) ++ [0x3A] :=
  if_neg (by simpa using h)

/-- An address with a prefix alone is refused. -/
theorem Ipv6Addr.stuck (a : Ipv6Addr)
    (w : Window E P s pos len ((suffixed a.text n).map some)) (h : ¬ a.Grouped) :
    Yields Reads (parseIpv6 fl pos len) s (.error .ipv6Oob) := by
  have h : ∃ g ∈ a.groups, g.Alone := by
    simpa only [Ipv6Addr.Grouped, not_forall, not_not, exists_prop] using h
  cases a with
  | full fs last h8 =>
    have hcount := last.one_le_count
    rw [suffixed, Ipv6Addr.text, List.append_assoc] at w
    exact full_stuck w (last.clean (some n)) (by omega) h
  | null fs gs last h7 =>
    have hcount := last.one_le_count
    rw [suffixed, Ipv6Addr.text, List.append_assoc] at w
    exact null_stuck w (last.clean (some n)) (by omega) h
  | nullEnd fs h7 =>
    rw [suffixed, Ipv6Addr.text] at w
    by_cases hfull : fs.length = 7
    · rw [nullText_groups (by rintro rfl; cases hfull), List.append_assoc] at w
      exact null_full_stuck w hfull h
    · have w' : Window E P s pos len ((nullText (fs.map HexGroup.text) ++
          closed 0x3A (([] : List HexGroup).map HexGroup.text) ++
            suffixText (some n)).map some) := by
        rw [List.map_nil, closed_nil, List.append_nil]
        exact w
      exact null_stuck w' (clean_suffix n) (by rw [List.length_nil]; omega)
        (by simpa [Ipv6Addr.groups] using h)

/-! ## What is read last -/

/-- The call comes to the rest of the parse behind `l` characters of `t`, which the address
ends with. -/
structure LastRead (s : St) (fl : ParseIpv6Flags) (pos len : Nat) (a : Ipv6Addr)
    (front t : List UInt8) (l : Nat) (ips : List Nat) : Prop where
  /-- The end of the address. -/
  text : a.text = front ++ t
  /-- The rest of the parse. -/
  rest : ∀ res, (∀ u, Reads s u → Yields Reads (parseIpv6Rest fl len (pos + front.length + l)
    (sizeSub (len - (pos + front.length - pos)) l) ips) u res) →
      Yields Reads (parseIpv6 fl pos len) s res
  /-- All of the end was read. -/
  ends : a.Ends → l = t.length
  /-- A letter of a prefix was not read, or too much behind a null field was. -/
  misses : ¬ a.Ends → (l = 1 ∧ ∃ x ys, LetterB x ∧ t = 0x30 :: x :: ys) ∨
    (t = [0x3A] ∧ 2 ≤ l ∧ l ≤ 4)

/-- An address without a null field. -/
theorem full_lastRead {fs : List HexGroup} {last : Ipv6Last} (h8 : fs.length + last.count = 8)
    (w : Window E P s pos len ((suffixed (Ipv6Addr.full fs last h8).text n).map some))
    (hg : (Ipv6Addr.full fs last h8).Grouped) :
    ∃ front t l ips, LastRead s fl pos len (.full fs last h8) front t l ips := by
  have hok := fields_ok fl.loc hg
  have hf := fields_groups fs
  rw [suffixed, Ipv6Addr.text, List.append_assoc, ← map_text_field fl.loc] at w
  rw [← map_text_field fl.loc] at hf
  cases last with
  | group g =>
    obtain ⟨hgok, htwice, hlen⟩ := g.field_ok fl.loc (some n) fun h => by cases h
    refine ⟨closed 0x3A (fs.map HexGroup.text), g.text, (g.field fl.loc (some n)).len,
      (fs.map (HexGroup.field fl.loc none)).map HexRead.val ++ [(g.field fl.loc (some n)).val],
      rfl, fun res hrest => ?_, hlen, fun hno => .inl ?_⟩
    · rw [← map_text_field fl.loc] at hrest
      exact groups_read w hok hf (g.clean (some n)).1 hgok (g.clean (some n)).2
        (by rw [List.length_map]; change fs.length + 1 = 8 at h8; omega) hrest
    · obtain ⟨x, y, ys, hx, -, ht⟩ := not_not.mp hno
      exact ⟨htwice (not_not.mp hno), x, y :: ys, hx, ht⟩
  | ipv4 a b c d =>
    refine ⟨closed 0x3A (fs.map HexGroup.text), ipv4Text a b c d, (ipv4Text a b c d).length,
      (fs.map (HexGroup.field fl.loc none)).map HexRead.val ++
        [b.val + a.val * 256, d.val + c.val * 256],
      rfl, fun res hrest => ?_, fun _ => rfl, fun hno => absurd trivial hno⟩
    rw [← map_text_field fl.loc] at hrest
    have w' : Window E P s pos len ((closed 0x3A ((fs.map (HexGroup.field fl.loc none)).map
      HexRead.text) ++ (ipv4Text a b c d ++ suffixText (some n))).map some) := w
    exact groups_ipv4_read w' hok hf (clean_ipv4 _ _ _ _)
      (by rw [List.length_map]; change fs.length + 2 = 8 at h8; omega) (by omega) (by omega)
      (by omega) (by omega) hrest

/-- An address with a null field that does not end with it. -/
theorem null_lastRead {fs gs : List HexGroup} {last : Ipv6Last}
    (h7 : fs.length + gs.length + last.count ≤ 7)
    (w : Window E P s pos len ((suffixed (Ipv6Addr.null fs gs last h7).text n).map some))
    (hg : (Ipv6Addr.null fs gs last h7).Grouped) :
    ∃ front t l ips, LastRead s fl pos len (.null fs gs last h7) front t l ips := by
  have hok := fields_ok fl.loc fun g hmem => hg g (List.mem_append_left _ hmem)
  have hok' := fields_ok fl.loc fun g hmem => hg g (List.mem_append_right _ hmem)
  have hf := fields_groups fs
  have hf' := fields_groups gs
  rw [suffixed, Ipv6Addr.text, List.append_assoc, ← map_text_field fl.loc fs,
    ← map_text_field fl.loc gs] at w
  rw [← map_text_field fl.loc] at hf hf'
  have h6 : (fs.map (HexGroup.field fl.loc none)).length +
      (gs.map (HexGroup.field fl.loc none)).length + last.count ≤ 7 := by
    rwa [List.length_map, List.length_map]
  cases last with
  | group g =>
    obtain ⟨hgok, htwice, hlen⟩ := g.field_ok fl.loc (some n) fun h => by cases h
    refine ⟨nullText (fs.map HexGroup.text) ++ closed 0x3A (gs.map HexGroup.text), g.text,
      (g.field fl.loc (some n)).len, (fs.map (HexGroup.field fl.loc none)).map HexRead.val ++
        List.replicate (8 - (fs.map (HexGroup.field fl.loc none)).length -
          ((gs.map (HexGroup.field fl.loc none)).length + 1)) 0 ++
            ((gs.map (HexGroup.field fl.loc none)).map HexRead.val ++
              [(g.field fl.loc (some n)).val]),
      rfl, fun res hrest => ?_, hlen, fun hno => .inl ?_⟩
    · rw [← map_text_field fl.loc fs, ← map_text_field fl.loc gs] at hrest
      exact null_read w hok hf hok' hf' (g.clean (some n)).1 hgok (g.clean (some n)).2
        (Nat.le_of_succ_le_succ h6) hrest
    · obtain ⟨x, y, ys, hx, -, ht⟩ := not_not.mp hno
      exact ⟨htwice (not_not.mp hno), x, y :: ys, hx, ht⟩
  | ipv4 a b c d =>
    refine ⟨nullText (fs.map HexGroup.text) ++ closed 0x3A (gs.map HexGroup.text),
      ipv4Text a b c d, (ipv4Text a b c d).length,
      (fs.map (HexGroup.field fl.loc none)).map HexRead.val ++
        List.replicate (8 - (fs.map (HexGroup.field fl.loc none)).length -
          ((gs.map (HexGroup.field fl.loc none)).length + 2)) 0 ++
            ((gs.map (HexGroup.field fl.loc none)).map HexRead.val ++
              [b.val + a.val * 256, d.val + c.val * 256]),
      rfl, fun res hrest => ?_, fun _ => rfl, fun hno => absurd trivial hno⟩
    rw [← map_text_field fl.loc fs, ← map_text_field fl.loc gs] at hrest
    have w' : Window E P s pos len ((nullText ((fs.map (HexGroup.field fl.loc none)).map
      HexRead.text) ++ closed 0x3A ((gs.map (HexGroup.field fl.loc none)).map HexRead.text) ++
        (ipv4Text a b c d ++ suffixText (some n))).map some) := w
    exact null_ipv4_read w' hok hf hok' hf' (clean_ipv4 _ _ _ _)
      (Nat.le_of_succ_le_succ (Nat.le_of_succ_le_succ h6)) (by omega) (by omega) (by omega)
      (by omega) hrest

/-- An address that ends with a null field. -/
theorem nullEnd_lastRead {fs : List HexGroup} (h7 : fs.length ≤ 7)
    (w : Window E P s pos len ((suffixed (Ipv6Addr.nullEnd fs h7).text n).map some))
    (hg : (Ipv6Addr.nullEnd fs h7).Grouped) :
    ∃ front t l ips, LastRead s fl pos len (.nullEnd fs h7) front t l ips := by
  have hok := fields_ok fl.loc hg
  have hf := fields_groups fs
  rw [suffixed, Ipv6Addr.text] at w
  by_cases hfull : fs.length = 7
  · have hne : fs ≠ [] := by
      rintro rfl
      cases hfull
    obtain ⟨init, g, rfl⟩ := (List.eq_nil_or_concat' fs).resolve_left hne
    obtain ⟨hgok, htwice, hlen⟩ := g.field_ok fl.loc none fun _ => hg g (by simp [Ipv6Addr.groups])
    have hlast : lastLen 0 ((init ++ [g]).map (HexGroup.field fl.loc none)) =
        (g.field fl.loc none).len := by
      rw [List.map_append, List.map_singleton, lastLen_append]
    rw [nullText_groups hne, List.append_assoc, ← map_text_field fl.loc] at w
    rw [← map_text_field fl.loc] at hf
    refine ⟨closed 0x3A ((init ++ [g]).map HexGroup.text), [0x3A], (g.field fl.loc none).len,
      ((init ++ [g]).map (HexGroup.field fl.loc none)).map HexRead.val ++ [0],
      nullText_groups hne, fun res hrest => ?_, fun hends => ?_, fun hno => .inr ⟨rfl, ?_, ?_⟩⟩
    · rw [← map_text_field fl.loc, ← hlast] at hrest
      exact parse_null_full w hok hf (clean_suffix n) (by rwa [List.length_map]) hrest
    · by_cases ht : g.Twice
      · exact htwice ht
      · rw [hlen ht]
        exact (hends hfull g (by simp)).resolve_left ht
    · have hno : ¬ (g.Twice ∨ g.text.length = 1) := by
        intro h
        refine hno fun _ g' hg' => ?_
        rw [List.getLast?_append, List.getLast?_singleton, Option.some_or] at hg'
        obtain rfl := Option.mem_some_iff.mp hg'
        exact h
      have h1 := List.length_pos_iff.mpr g.ne_nil
      rw [hlen fun h => hno (.inl h)]
      have : g.text.length ≠ 1 := fun h => hno (.inr h)
      omega
    · exact hgok.le_four
  · rw [← map_text_field fl.loc] at w hf
    refine ⟨nullText (fs.map HexGroup.text), [], 0,
      (fs.map (HexGroup.field fl.loc none)).map HexRead.val ++
        List.replicate (8 - (fs.map (HexGroup.field fl.loc none)).length) 0,
      (List.append_nil _).symm, fun res hrest => ?_, fun _ => rfl,
      fun hno => absurd (fun h => absurd h hfull) hno⟩
    rw [← map_text_field fl.loc] at hrest
    exact null_slash_read w hok hf (clean_suffix n) (by rw [List.length_map]; omega) hrest

/-- What is read last of an address whose groups are no prefixes alone. -/
theorem Ipv6Addr.lastRead (a : Ipv6Addr) (w : Window E P s pos len ((suffixed a.text n).map some))
    (hg : a.Grouped) : ∃ front t l ips, LastRead s fl pos len a front t l ips := by
  cases a with
  | full fs last h8 => exact full_lastRead h8 w hg
  | null fs gs last h7 => exact null_lastRead h7 w hg
  | nullEnd fs h7 => exact nullEnd_lastRead h7 w hg

end

end Vstr
