import Vstr.Parse.IpRound

/-!
# Formatter and parser

For which addresses `vstr_parse_ipv6` reads back what the vector formatters wrote.
-/

namespace Vstr

open Memory Splice Query

variable {E : Env} {P : Own} {s : St} {pos v : Nat} {loc : Bool} {fl : ParseIpv6Flags}
  {cidr : Option Nat} {vs : List Nat}

/-! ## The fields that are written -/

/-- Digits and a suffix are a field. -/
theorem clean_digits (cidr : Option Nat) {g : List UInt8} (hne : g ≠ [])
    (hg : ∀ c ∈ g, ∃ d < 16, c = digitChr d) :
    Clean (g ++ suffixText cidr) ∧ 0x2E ∉ g ++ suffixText cidr := by
  have hall : ∀ c ∈ g ++ suffixText cidr, c ≠ 0x3A ∧ c ≠ 0x2E := by
    intro c hc
    have hc : c = 0x2F ∨ ∃ d < 16, c = digitChr d := by
      rcases List.mem_append.mp hc with hc | hc
      · exact .inr (hg c hc)
      · exact mem_suffixText hc
    rcases hc with rfl | ⟨d, hd, rfl⟩
    · decide
    · exact ⟨(digitChr_eq hd).2.2.1, (digitChr_eq hd).2.2.2.2⟩
  exact ⟨⟨by simp [hne], fun h => (hall _ h).1 rfl⟩, fun h => (hall _ h).2 rfl⟩

theorem clean_suffix (c : Nat) : Clean (suffixText (some c)) := by
  refine ⟨by simp [suffixText], fun h => ?_⟩
  rcases mem_suffixText h with h | ⟨d, hd, h⟩
  · cases h
  · exact (digitChr_eq hd).2.2.1 h.symm

theorem clean_ipv4 (a b c d : Nat) : Clean (ipv4Text a b c d ++ suffixText cidr) := by
  have hne : ipv4Text a b c d ≠ [] := by simp [ipv4Text_eq]
  refine ⟨by simp [hne], fun h => ?_⟩
  have hdigit : ∀ n, (0x3A : UInt8) ∉ numText 10 n := by
    intro n h
    obtain ⟨d, hd, e⟩ := mem_numText (.inl rfl) h
    exact (digitChr_eq (by omega)).2.2.1 e.symm
  rcases List.mem_append.mp h with h | h
  · simp only [ipv4Text_eq, List.mem_append, List.mem_cons, hdigit, false_or] at h
    revert h
    decide
  · rcases mem_suffixText h with h | ⟨d, hd, h⟩
    · cases h
    · exact (digitChr_eq hd).2.2.1 h.symm

/-- A group without leading zeros is read back. -/
theorem numText_ok (loc : Bool) (cidr : Option Nat) (hv : v < 65536) :
    HexRead.Ok loc ⟨numText 16 v ++ suffixText cidr, v, (numText 16 v).length⟩ := by
  have h : ∀ pos, _ := fun pos => ufuncOf_numText (b := 16) (.inr rfl) loc false
    (fun h => by cases h) (show v < 2 ^ 32 by omega) (stops_suffix loc 16 cidr) pos
  have hlen := length_numText_le (b := 16) (.inr rfl) (show 1 ≤ 4 by omega)
    (show v < 16 ^ 4 by omega)
  have hpos := List.length_pos_iff.mpr (numText_ne_nil 16 v)
  simp only [← List.map_append] at h
  exact ⟨fun pos => (h pos).1, fun pos => (h pos).2, hpos, hlen, show v ≤ 0xFFFF by omega⟩

/-- A group without leading zeros. -/
def stdRead (v : Nat) : HexRead := ⟨numText 16 v, v, (numText 16 v).length⟩

theorem stdRead_ok (loc : Bool) (hv : v < 65536) : (stdRead v).Ok loc := by
  have h := numText_ok loc none hv
  rwa [show suffixText none = [] from rfl, List.append_nil] at h

theorem stdRead_all (loc : Bool) (h : ∀ v ∈ vs, v < 65536) :
    (∀ f ∈ vs.map stdRead, f.Ok loc) ∧ Fields 0x3A ((vs.map stdRead).map HexRead.text) := by
  have hok : ∀ f ∈ vs.map stdRead, f.Ok loc := by
    intro f hf
    obtain ⟨v, hv, rfl⟩ := List.mem_map.mp hf
    exact stdRead_ok loc (h v hv)
  refine ⟨hok, HexRead.Ok.fields hok fun f hf => ?_⟩
  obtain ⟨v, hv, rfl⟩ := List.mem_map.mp hf
  have := (clean_digits none (numText_ne_nil 16 v) fun c => mem_numText (.inr rfl)).1.colon
  rwa [show suffixText none = [] from rfl, List.append_nil] at this

@[simp] theorem map_text_stdRead (vs : List Nat) :
    (vs.map stdRead).map HexRead.text = vs.map (numText 16) := by
  rw [List.map_map]
  rfl

@[simp] theorem map_val_stdRead (vs : List Nat) : (vs.map stdRead).map HexRead.val = vs := by
  rw [List.map_map]
  exact List.map_id vs

/-- A group with leading zeros. -/
def alignedRead (loc : Bool) (cidr : Option Nat) (v : Nat) : HexRead where
  text := hexText4 v ++ suffixText cidr
  val := (ufuncOf 32 (ipNumFlags 16 loc false) 0 ((hexText4 v ++ suffixText cidr).map some)).num
  len := (ufuncOf 32 (ipNumFlags 16 loc false) 0 ((hexText4 v ++ suffixText cidr).map some)).len

/-- It is read back, unless it looks like a prefix. -/
theorem alignedRead_ok (loc : Bool) (cidr : Option Nat) (hv : v < 65536) :
    (alignedRead loc cidr v).Ok loc ∧
      (v / 256 ≠ 0x0B → (alignedRead loc cidr v).val = v ∧ (alignedRead loc cidr v).len = 4) ∧
      (v / 256 = 0x0B → (alignedRead loc cidr v).val ≠ v) := by
  have hr := stops_suffix loc 16 cidr
  by_cases hB : v / 256 = 0x0B
  · obtain ⟨n, l, hn, h1, h4, h⟩ := ufuncOf_prefix loc
      (show v / 16 % 16 < 16 by omega) (show v % 16 < 16 by omega) hr
    rw [← hexText4_prefix hB, ← List.map_append] at h
    have hval : (alignedRead loc cidr v).val = n := (h 0).1
    have hlen : (alignedRead loc cidr v).len = l := (h 0).2
    refine ⟨⟨fun pos => ?_, fun pos => ?_, by omega, by omega, by omega⟩,
      fun hne => absurd hB hne, fun _ => by omega⟩
    · rw [hval]
      exact (h pos).1
    · rw [hlen]
      exact (h pos).2
  · have h : ∀ pos, _ := fun pos => ufuncOf_hexText4 loc hv hB hr pos
    simp only [← List.map_append] at h
    have hval : (alignedRead loc cidr v).val = v := (h 0).1
    have hlen : (alignedRead loc cidr v).len = 4 := (h 0).2
    refine ⟨⟨fun pos => ?_, fun pos => ?_, by omega, by omega, by omega⟩,
      fun _ => ⟨hval, hlen⟩, fun h => absurd h hB⟩
    · rw [hval]
      exact (h pos).1
    · rw [hlen]
      exact (h pos).2

theorem alignedRead_all (loc : Bool) (h : ∀ v ∈ vs, v < 65536) :
    (∀ f ∈ vs.map (alignedRead loc none), f.Ok loc) ∧
      Fields 0x3A ((vs.map (alignedRead loc none)).map HexRead.text) := by
  have hok : ∀ f ∈ vs.map (alignedRead loc none), f.Ok loc := by
    intro f hf
    obtain ⟨v, hv, rfl⟩ := List.mem_map.mp hf
    exact (alignedRead_ok loc none (h v hv)).1
  refine ⟨hok, HexRead.Ok.fields hok fun f hf => ?_⟩
  obtain ⟨v, hv, rfl⟩ := List.mem_map.mp hf
  have hne : hexText4 v ≠ [] := by simp [hexText4, numText_ne_nil]
  exact (clean_digits none hne fun c => mem_hexText4).1.colon

@[simp] theorem map_text_alignedRead (loc : Bool) (vs : List Nat) :
    (vs.map (alignedRead loc none)).map HexRead.text = vs.map hexText4 := by
  rw [List.map_map]
  refine List.map_congr_left fun v _ => ?_
  exact List.append_nil _

/-! ## Reading back -/

/-- Eight groups of 16 bits. -/
structure Ipv6Groups where
  /-- The groups. -/
  val : List Nat
  /-- There are eight. -/
  length : val.length = 8
  /-- They have 16 bits. -/
  lt : ∀ x ∈ val, x < 65536

/-- Wherever the text is, the parser reads it to its end and returns the groups and the
suffix. -/
def Ipv6Agrees (type : Ipv6Type) (ips : List Nat) (cidr : Option Nat) : Prop :=
  ∀ (E : Env) (P : Own) (s : St) (pos : Nat) (fl : ParseIpv6Flags),
    (cidr.isSome = true → fl.cidr = true) →
    Window E P s pos (fmtIpv6 type ips cidr).length ((fmtIpv6 type ips cidr).map some) →
    ((parseIpv6 fl pos (fmtIpv6 type ips cidr).length).run s).1 =
      .ok ⟨ips, cidr.getD 128, (fmtIpv6 type ips cidr).length, false⟩

/-- The last group is the only zero, and the one before it has more than one digit. -/
def EndsStale (ips : List Nat) : Prop := ∃ bs x, ips = bs ++ [x, 0] ∧ 0 ∉ bs ∧ 16 ≤ x

/-- No group is written like a prefix, and a null field at the end has a suffix behind it
and is not the eighth field behind a longer one. -/
def Ipv6Readable (type : Ipv6Type) (ips : List Nat) (cidr : Option Nat) : Prop :=
  match type with
  | .aligned => ∀ x ∈ ips, x / 256 ≠ 0x0B
  | .ipv4Aligned => ∀ x ∈ ips.take 6, x / 256 ≠ 0x0B
  | .compact => if cidr.isSome then ¬ EndsStale ips else ¬ EndsLongest ips
  | _ => True

/-- An answer that is not the address disagrees. -/
theorem not_agrees {type : Ipv6Type} {ips : List Nat} (fl : ParseIpv6Flags)
    (hfl : cidr.isSome = true → fl.cidr = true) (pad : List UInt8)
    (h : ∀ P, Window alone P (written (fmtIpv6 type ips cidr ++ pad)) 1
        (fmtIpv6 type ips cidr).length ((fmtIpv6 type ips cidr).map some) →
      Window alone P (written (fmtIpv6 type ips cidr ++ pad)) 1
        (fmtIpv6 type ips cidr ++ pad).length ((fmtIpv6 type ips cidr ++ pad).map some) →
      ∃ res, Yields Reads (parseIpv6 fl 1 (fmtIpv6 type ips cidr).length)
          (written (fmtIpv6 type ips cidr ++ pad)) res ∧
        res ≠ .ok ⟨ips, cidr.getD 128, (fmtIpv6 type ips cidr).length, false⟩) :
    ¬ Ipv6Agrees type ips cidr := by
  intro ha
  obtain ⟨P, w, w'⟩ := window_written (fmtIpv6 type ips cidr) pad
  obtain ⟨res, hy, hne⟩ := h P w w'
  exact hne (hy.1.symm.trans (ha alone P _ 1 fl hfl w))

/-- The text with its suffix. -/
theorem fmtIpv6_eq (type : Ipv6Type) (ips : List Nat) (cidr : Option Nat) :
    fmtIpv6 type ips cidr = prntIpv6 type ips ++ suffixText cidr := rfl

theorem joinGroups_close {gs : List (List UInt8)} (sep : UInt8) (h : gs ≠ []) :
    joinGroups sep gs ++ [sep] = closed sep gs := by
  obtain rfl | ⟨gs, g, rfl⟩ := List.eq_nil_or_concat' gs
  · exact absurd rfl h
  · rw [joinGroups_append sep gs (List.cons_ne_nil g []), closed_append]
    simp [joinGroups]

/-- A null field behind groups, as it is printed. -/
theorem joinGroups_null (gs : List (List UInt8)) :
    joinGroups 0x3A gs ++ [0x3A, 0x3A] = nullText gs := by
  unfold nullText
  split
  · rename_i h
    rw [h]
    rfl
  · rename_i h
    rw [← joinGroups_close 0x3A h, List.append_assoc]
    rfl

/-- The last two groups are the IPv4 address. -/
theorem ipv4_groups {ips : List Nat} (h8 : ips.length = 8) (hlt : ∀ x ∈ ips, x < 65536) :
    ∃ x y, ips = ips.take 6 ++ [x, y] ∧ x < 65536 ∧ y < 65536 ∧
    prntIpv4End ips = ipv4Text (x / 256) (x % 256) (y / 256) (y % 256) := by
  obtain ⟨x, y, e⟩ : ∃ x y, ips.drop 6 = [x, y] := by
    have hd : (ips.drop 6).length = 2 := by rw [List.length_drop, h8]
    exact List.length_eq_two.mp hd
  have he : ips = ips.take 6 ++ [x, y] := by rw [← e, List.take_append_drop]
  have hlen : (ips.take 6).length = 6 := by rw [List.length_take, h8]; rfl
  refine ⟨x, y, he, hlt x (by rw [he]; simp), hlt y (by rw [he]; simp), ?_⟩
  have h6 : ips.getD 6 0 = x := by
    rw [he, List.getD_eq_getElem?_getD, List.getElem?_append_right (by omega), hlen]
    rfl
  have h7 : ips.getD 7 0 = y := by
    rw [he, List.getD_eq_getElem?_getD, List.getElem?_append_right (by omega), hlen]
    rfl
  rw [prntIpv4End, h6, h7]
  rfl

/-- Whatever was read of the last group, the groups are returned. -/
theorem aligned_rest {x len : Nat} {front : List UInt8} {ips : List Nat} (hx : x < 65536)
    (hok : (alignedRead loc cidr x).Ok loc)
    (w : Window E P s pos len ((front ++ (hexText4 x ++ suffixText cidr)).map some))
    (hc : ∀ c ∈ cidr, c ≤ 128) :
    ∃ r, (∀ u, Reads s u → Yields Reads (parseIpv6Rest ⟨loc, true, false, false⟩ len
        (pos + front.length + (alignedRead loc cidr x).len)
        (sizeSub (len - (pos + front.length - pos)) (alignedRead loc cidr x).len) ips) u
        (.ok r)) ∧ r.ips = ips := by
  have hlen := w.length
  have h4 := length_hexText4 hx
  rw [List.length_map, List.length_append, List.length_append, h4] at hlen
  have hl := hok.one_le
  by_cases hl4 : (alignedRead loc cidr x).len = 4
  · refine ⟨⟨ips, cidr.getD 128, len, false⟩, fun u q => ?_, rfl⟩
    rw [hl4, ← h4]
    exact rest_last _ (w.reads q) _ (fun _ => rfl) hc
  · have hlt : (alignedRead loc cidr x).len < (hexText4 x).length := by
      have := hok.le_four
      omega
    obtain ⟨c, cs, e⟩ : ∃ c cs, (hexText4 x).drop (alignedRead loc cidr x).len = c :: cs :=
      ⟨_, _, List.drop_eq_getElem_cons hlt⟩
    have hmem : c ∈ hexText4 x := List.mem_of_mem_drop (e ▸ List.mem_cons_self)
    obtain ⟨d, hd, rfl⟩ := mem_hexText4 hmem
    have e' : (front ++ (hexText4 x ++ suffixText cidr)).map some =
        (front ++ (hexText4 x).take (alignedRead loc cidr x).len).map some ++
          some (digitChr d) :: (cs ++ suffixText cidr).map some := by
      rw [← List.map_cons, ← List.map_append, ← List.cons_append, ← e, List.append_assoc front,
        ← List.append_assoc (List.take _ _), List.take_append_drop]
    rw [e'] at w
    have w' := w.behind
    rw [List.length_map, List.length_append, List.length_take, Nat.min_eq_left (by omega),
      ← Nat.add_assoc] at w'
    refine ⟨⟨ips, _, _, _⟩, fun u q => rest_other _ _ _ (w'.reads q) ?_
      (digitChr_eq hd).2.2.2.1, rfl⟩
    rw [sizeSub, if_pos (by omega)]
    omega

/-- The length of the group before is taken for that of the null field: the suffix is not
found. -/
theorem stale_rest {len m nl c : Nat} {front pad : List UInt8} (fl : ParseIpv6Flags)
    (ips : List Nat) (w : Window E P s pos len ((front ++ 0x3A :: suffixText (some c)).map some))
    (w' : Window E P s pos m ((front ++ 0x3A :: suffixText (some c) ++ pad).map some))
    (h2 : 2 ≤ nl) (h4 : nl ≤ 4) (hlt : nl < (numText 10 c).length + 2 + pad.length)
    (hpad : 0x2F ∉ pad) :
    ∃ r, (∀ u, Reads s u → Yields Reads (parseIpv6Rest fl len
        (pos + front.length + nl) (sizeSub (len - (pos + front.length - pos)) nl) ips) u
        (.ok r)) ∧ r.cidr = 128 ∧ (nl ≠ (numText 10 c).length + 2 → r.len ≠ len) := by
  have hl := w.length
  have hsuf : suffixText (some c) = 0x2F :: numText 10 c := rfl
  have hpos := List.length_pos_iff.mpr (numText_ne_nil 10 c)
  rw [List.length_map, List.length_append, List.length_cons, hsuf, List.length_cons] at hl
  by_cases hend : nl = (numText 10 c).length + 2
  · refine ⟨⟨ips, 128, len, false⟩, fun u q => ?_, rfl, fun h => absurd hend h⟩
    have wt := (w.reads q).drop (Nat.le_refl len)
    rw [Nat.sub_self, List.drop_eq_nil_of_le (by
      rw [List.length_map, List.length_append, List.length_cons, hsuf, List.length_cons]
      omega)] at wt
    have e : sizeSub (len - (pos + front.length - pos)) nl = 0 := by
      rw [sizeSub, if_pos (by omega)]
      omega
    rw [e, show pos + front.length + nl = pos + len by omega]
    exact rest_suffix none _ len ips wt (fun h => by cases h) (fun c hc => by cases hc)
  · have hdrop : (numText 10 c ++ pad).drop (nl - 2) ≠ [] := by
      intro h
      rw [List.drop_eq_nil_iff, List.length_append] at h
      omega
    obtain ⟨ch, cs, e⟩ := List.exists_cons_of_ne_nil hdrop
    have hch : ch ≠ 0x2F := by
      have hmem : ch ∈ numText 10 c ++ pad := List.mem_of_mem_drop (e ▸ List.mem_cons_self)
      rcases List.mem_append.mp hmem with hmem | hmem
      · obtain ⟨d, hd, rfl⟩ := mem_numText (.inl rfl) hmem
        exact (digitChr_eq (by omega)).2.2.2.1
      · rintro rfl
        exact hpad hmem
    have hbytes : ((front ++ 0x3A :: suffixText (some c) ++ pad).map some).drop
        (front.length + nl) = some ch :: cs.map some := by
      rw [← List.map_drop, List.append_assoc, ← List.drop_drop, List.drop_left,
        show nl = nl - 2 + 1 + 1 by omega, hsuf, List.cons_append, List.cons_append,
        List.drop_succ_cons, List.drop_succ_cons, e]
      rfl
    have hm := w'.length
    rw [List.length_map, List.length_append, List.length_append, List.length_cons, hsuf,
      List.length_cons] at hm
    have wt := w'.drop (show front.length + nl ≤ m by omega)
    rw [hbytes, ← Nat.add_assoc] at wt
    have hne : sizeSub (len - (pos + front.length - pos)) nl ≠ 0 := by
      unfold sizeSub
      split <;> omega
    refine ⟨⟨ips, 128, sizeSub len (sizeSub (len - (pos + front.length - pos)) nl), _⟩,
      fun u q => rest_other _ _ _ (wt.reads q) hne hch, rfl, fun _ => ?_⟩
    dsimp only
    unfold sizeSub
    split <;> split <;> omega

section

variable {ips : List Nat} (h8 : ips.length = 8) (hlt : ∀ x ∈ ips, x < 65536)
  (hc : ∀ c ∈ cidr, c ≤ 128)
include h8 hlt hc

/-- Groups without leading zeros. -/
theorem agrees_join {type : Ipv6Type}
    (htext : prntIpv6 type ips = joinGroups 0x3A (ips.map (numText 16))) :
    Ipv6Agrees type ips cidr := by
  intro E P s pos fl hfl w
  obtain rfl | ⟨xs, x, rfl⟩ := List.eq_nil_or_concat' ips
  · cases h8
  rw [List.length_append, List.length_singleton] at h8
  have hx := hlt x (by simp)
  have hxs : ∀ v ∈ xs, v < 65536 := fun v hv => hlt v (by simp [hv])
  obtain ⟨hok, hf⟩ := stdRead_all fl.loc hxs
  obtain ⟨hclean, hdot⟩ := clean_digits cidr (numText_ne_nil 16 x)
    fun c => mem_numText (.inr rfl)
  have e : fmtIpv6 type (xs ++ [x]) cidr = closed 0x3A ((xs.map stdRead).map HexRead.text) ++
      (numText 16 x ++ suffixText cidr) := by
    rw [fmtIpv6_eq, htext, List.map_append, List.map_singleton, joinGroups_concat,
      map_text_stdRead, List.append_assoc]
  rw [e] at w ⊢
  have h := parse_groups w hok hf hclean (numText_ok fl.loc cidr hx) hdot (by simpa using h8)
    hfl hc
  rw [map_val_stdRead] at h
  exact h.1

/-- Six groups with separators, and an IPv4 address. -/
theorem agrees_ipv4 {type : Ipv6Type} (htext : prntIpv6 type ips =
      closed 0x3A ((ips.take 6).map (numText 16)) ++ prntIpv4End ips) :
    Ipv6Agrees type ips cidr := by
  intro E P s pos fl hfl w
  obtain ⟨x, y, he, hx, hy, hend⟩ := ipv4_groups h8 hlt
  have hlen : (ips.take 6).length = 6 := by rw [List.length_take, h8]; rfl
  have hxs : ∀ v ∈ ips.take 6, v < 65536 := fun v hv => hlt v (List.mem_of_mem_take hv)
  obtain ⟨hok, hf⟩ := stdRead_all fl.loc hxs
  have e : fmtIpv6 type ips cidr = closed 0x3A (((ips.take 6).map stdRead).map HexRead.text) ++
      (ipv4Text (x / 256) (x % 256) (y / 256) (y % 256) ++ suffixText cidr) := by
    rw [fmtIpv6_eq, htext, hend, map_text_stdRead, List.append_assoc]
  rw [e] at w ⊢
  have h := parse_groups_ipv4 w hok hf (clean_ipv4 _ _ _ _) (by simpa using hlen)
    (by omega) (by omega) (by omega) (by omega) hfl hc
  rw [map_val_stdRead, show x % 256 + x / 256 * 256 = x by omega,
    show y % 256 + y / 256 * 256 = y by omega, ← he] at h
  exact h.1

/-- A null field with groups behind it. -/
theorem agrees_null_hex {type : Ipv6Type} {bs cs : List Nat} {k : Nat}
    (he : ips = bs ++ List.replicate (k + 1) 0 ++ cs) (hcs : cs ≠ [])
    (htext : prntIpv6 type ips = nullText (bs.map (numText 16)) ++
      joinGroups 0x3A (cs.map (numText 16))) :
    Ipv6Agrees type ips cidr := by
  intro E P s pos fl hfl w
  obtain rfl | ⟨cs, x, rfl⟩ := List.eq_nil_or_concat' cs
  · exact absurd rfl hcs
  have hlen := h8
  rw [he] at hlen
  simp only [List.length_append, List.length_replicate, List.length_singleton] at hlen
  have hbs : ∀ v ∈ bs, v < 65536 := fun v hv => hlt v (by rw [he]; simp [hv])
  have hcs' : ∀ v ∈ cs, v < 65536 := fun v hv => hlt v (by rw [he]; simp [hv])
  have hx : x < 65536 := hlt x (by rw [he]; simp)
  obtain ⟨hok, hf⟩ := stdRead_all fl.loc hbs
  obtain ⟨hok', hf'⟩ := stdRead_all fl.loc hcs'
  obtain ⟨hclean, hdot⟩ := clean_digits cidr (numText_ne_nil 16 x)
    fun c => mem_numText (.inr rfl)
  have e : fmtIpv6 type ips cidr = nullText ((bs.map stdRead).map HexRead.text) ++
      closed 0x3A ((cs.map stdRead).map HexRead.text) ++ (numText 16 x ++ suffixText cidr) := by
    rw [fmtIpv6_eq, htext, List.map_append, List.map_singleton, joinGroups_concat,
      map_text_stdRead, map_text_stdRead, List.append_assoc, List.append_assoc, List.append_assoc]
  rw [e] at w ⊢
  have h := parse_null_hex w hok hf hok' hf' hclean (numText_ok fl.loc cidr hx) hdot
    (by simp only [List.length_map]; omega) hfl hc
  rw [map_val_stdRead, map_val_stdRead, List.length_map, List.length_map,
    show 8 - bs.length - (cs.length + 1) = k + 1 by omega, ← he] at h
  exact h.1

/-- A null field, groups and an IPv4 address. -/
theorem agrees_null_ipv4 {type : Ipv6Type} {bs cs : List Nat} {k : Nat}
    (he : ips.take 6 = bs ++ List.replicate (k + 1) 0 ++ cs)
    (htext : prntIpv6 type ips = nullText (bs.map (numText 16)) ++
      closed 0x3A (cs.map (numText 16)) ++ prntIpv4End ips) :
    Ipv6Agrees type ips cidr := by
  intro E P s pos fl hfl w
  obtain ⟨x, y, hips, hx, hy, hend⟩ := ipv4_groups h8 hlt
  have hlen : (ips.take 6).length = 6 := by rw [List.length_take, h8]; rfl
  have hval : bs ++ List.replicate (k + 1) 0 ++ (cs ++ [x, y]) = ips := by
    rw [← List.append_assoc, ← he]
    exact hips.symm
  rw [he] at hlen
  simp only [List.length_append, List.length_replicate] at hlen
  have hall : ∀ v ∈ ips.take 6, v < 65536 := fun v hv => hlt v (List.mem_of_mem_take hv)
  have hbs : ∀ v ∈ bs, v < 65536 := fun v hv => hall v (by rw [he]; simp [hv])
  have hcs : ∀ v ∈ cs, v < 65536 := fun v hv => hall v (by rw [he]; simp [hv])
  obtain ⟨hok, hf⟩ := stdRead_all fl.loc hbs
  obtain ⟨hok', hf'⟩ := stdRead_all fl.loc hcs
  have e : fmtIpv6 type ips cidr = nullText ((bs.map stdRead).map HexRead.text) ++
      closed 0x3A ((cs.map stdRead).map HexRead.text) ++
        (ipv4Text (x / 256) (x % 256) (y / 256) (y % 256) ++ suffixText cidr) := by
    rw [fmtIpv6_eq, htext, hend, map_text_stdRead, map_text_stdRead, List.append_assoc]
  rw [e] at w ⊢
  have h := parse_null_ipv4 w hok hf hok' hf' (clean_ipv4 _ _ _ _)
    (by simp only [List.length_map]; omega) (by omega) (by omega) (by omega) (by omega) hfl hc
  rw [map_val_stdRead, map_val_stdRead, List.length_map, List.length_map,
    show 8 - bs.length - (cs.length + 2) = k + 1 by omega,
    show x % 256 + x / 256 * 256 = x by omega, show y % 256 + y / 256 * 256 = y by omega,
    hval] at h
  exact h.1

/-- A null field and a suffix behind at most six groups. -/
theorem agrees_null_slash {type : Ipv6Type} {bs : List Nat} {k c : Nat}
    (he : ips = bs ++ List.replicate (k + 2) 0) (hsome : cidr = some c)
    (htext : prntIpv6 type ips = nullText (bs.map (numText 16))) :
    Ipv6Agrees type ips cidr := by
  intro E P s pos fl hfl w
  subst hsome
  have hlen := h8
  rw [he, List.length_append, List.length_replicate] at hlen
  have hbs : ∀ v ∈ bs, v < 65536 := fun v hv => hlt v (by rw [he]; simp [hv])
  obtain ⟨hok, hf⟩ := stdRead_all fl.loc hbs
  have e : fmtIpv6 type ips (some c) = nullText ((bs.map stdRead).map HexRead.text) ++
      suffixText (some c) := by
    rw [fmtIpv6_eq, htext, map_text_stdRead]
  rw [e] at w ⊢
  have h := parse_null_slash w hok hf (clean_suffix c) (by rw [List.length_map]; omega) (hfl rfl)
    (hc c rfl)
  rw [map_val_stdRead, List.length_map, show 8 - bs.length = k + 2 by omega, ← he] at h
  exact h.1

/-- Groups with leading zeros. -/
theorem agrees_aligned : Ipv6Agrees .aligned ips cidr ↔ ∀ x ∈ ips, x / 256 ≠ 0x0B := by
  obtain rfl | ⟨xs, x, rfl⟩ := List.eq_nil_or_concat' ips
  · cases h8
  rw [List.length_append, List.length_singleton] at h8
  have hx := hlt x (by simp)
  have hxs : ∀ v ∈ xs, v < 65536 := fun v hv => hlt v (by simp [hv])
  have hne : hexText4 x ≠ [] := by simp [hexText4, numText_ne_nil]
  obtain ⟨hclean, hdot⟩ := clean_digits cidr hne fun c => mem_hexText4
  have e : ∀ loc, fmtIpv6 .aligned (xs ++ [x]) cidr =
      closed 0x3A ((xs.map (alignedRead loc none)).map HexRead.text) ++
        (hexText4 x ++ suffixText cidr) := by
    intro loc
    rw [fmtIpv6_eq, map_text_alignedRead, ← List.append_assoc]
    congr 1
    exact (congrArg (joinGroups 0x3A) List.map_append).trans (joinGroups_concat _ _)
  constructor
  · intro ha
    by_contra hbad
    refine not_agrees ⟨false, true, false, false⟩ (fun _ => rfl) [] (fun P w _ => ?_) ha
    obtain ⟨hok, hf⟩ := alignedRead_all false hxs
    obtain ⟨hokx, -, -⟩ := alignedRead_ok false cidr hx
    rw [e false] at w ⊢
    obtain ⟨r, hr, hips⟩ := aligned_rest hx hokx w hc
    refine ⟨.ok r, groups_read w hok hf hclean hokx hdot (by simpa using h8) hr, fun h => hbad ?_⟩
    have hvals := hips.symm.trans (congrArg ParsedIpv6.ips (Except.ok.inj h))
    obtain ⟨hinit, hlast⟩ := List.append_inj' hvals rfl
    intro y hy hB
    rcases List.mem_append.mp hy with hy | hy
    · refine (alignedRead_ok false none (hxs y hy)).2.2 hB ?_
      rw [List.map_map] at hinit
      exact List.map_inj_left.mp (hinit.trans (List.map_id xs).symm) y hy
    · obtain rfl := List.mem_singleton.mp hy
      exact (alignedRead_ok false cidr hx).2.2 hB (List.singleton_inj.mp hlast)
  · intro hgood E P s pos fl hfl w
    obtain ⟨hok, hf⟩ := alignedRead_all fl.loc hxs
    obtain ⟨hokx, hval, -⟩ := alignedRead_ok fl.loc cidr hx
    obtain ⟨hv, hl⟩ := hval (hgood x (by simp))
    have hread : HexRead.Ok fl.loc ⟨hexText4 x ++ suffixText cidr, x, (hexText4 x).length⟩ := by
      rw [length_hexText4 hx, ← hl]
      nth_rewrite 2 [← hv]
      exact hokx
    rw [e fl.loc] at w ⊢
    have h := parse_groups w hok hf hclean hread hdot (by simpa using h8) hfl hc
    have hvals : (xs.map (alignedRead fl.loc none)).map HexRead.val = xs := by
      rw [List.map_map]
      conv_rhs => rw [← List.map_id xs]
      refine List.map_congr_left fun v hv => ?_
      exact ((alignedRead_ok fl.loc none (hxs v hv)).2.1 (hgood v (by simp [hv]))).1
    rw [hvals] at h
    exact h.1

/-- Six groups with leading zeros, and an IPv4 address. -/
theorem agrees_ipv4Aligned :
    Ipv6Agrees .ipv4Aligned ips cidr ↔ ∀ x ∈ ips.take 6, x / 256 ≠ 0x0B := by
  obtain ⟨x, y, he, hx, hy, hend⟩ := ipv4_groups h8 hlt
  have hlen : (ips.take 6).length = 6 := by rw [List.length_take, h8]; rfl
  have hxs : ∀ v ∈ ips.take 6, v < 65536 := fun v hv => hlt v (List.mem_of_mem_take hv)
  have e : ∀ loc, fmtIpv6 .ipv4Aligned ips cidr =
      closed 0x3A (((ips.take 6).map (alignedRead loc none)).map HexRead.text) ++
        (ipv4Text (x / 256) (x % 256) (y / 256) (y % 256) ++ suffixText cidr) := by
    intro loc
    have hne : (ips.take 6).map hexText4 ≠ [] := by
      intro h
      rw [List.map_eq_nil_iff] at h
      rw [h] at hlen
      cases hlen
    rw [fmtIpv6_eq, map_text_alignedRead, ← hend, ← List.append_assoc,
      ← joinGroups_close 0x3A hne]
    rfl
  have hread : ∀ {E : Env} {P : Own} {s : St} {pos : Nat} {fl : ParseIpv6Flags},
      (cidr.isSome = true → fl.cidr = true) →
      Window E P s pos (fmtIpv6 .ipv4Aligned ips cidr).length
        ((fmtIpv6 .ipv4Aligned ips cidr).map some) →
      Yields Reads (parseIpv6 fl pos (fmtIpv6 .ipv4Aligned ips cidr).length) s
        (.ok ⟨((ips.take 6).map (alignedRead fl.loc none)).map HexRead.val ++ [x, y],
          cidr.getD 128, (fmtIpv6 .ipv4Aligned ips cidr).length, false⟩) := by
    intro E P s pos fl hfl w
    obtain ⟨hok, hf⟩ := alignedRead_all fl.loc hxs
    rw [e fl.loc] at w ⊢
    have h := parse_groups_ipv4 w hok hf (clean_ipv4 _ _ _ _) (by simpa using hlen)
      (by omega) (by omega) (by omega) (by omega) hfl hc
    rwa [show x % 256 + x / 256 * 256 = x by omega,
      show y % 256 + y / 256 * 256 = y by omega] at h
  constructor
  · intro ha z hz hB
    refine not_agrees ⟨false, true, false, false⟩ (fun _ => rfl) [] (fun P w _ => ?_) ha
    refine ⟨_, hread (fun _ => rfl) w, fun h => ?_⟩
    have hvals := congrArg ParsedIpv6.ips (Except.ok.inj h)
    dsimp only at hvals
    rw [he, List.take_left' hlen] at hvals
    have hvals := List.append_cancel_right hvals
    rw [List.map_map] at hvals
    refine (alignedRead_ok false none (hxs z hz)).2.2 hB ?_
    exact List.map_inj_left.mp (hvals.trans (List.map_id _).symm) z hz
  · intro hgood E P s pos fl hfl w
    have hvals : ((ips.take 6).map (alignedRead fl.loc none)).map HexRead.val = ips.take 6 := by
      rw [List.map_map]
      conv_rhs => rw [← List.map_id (ips.take 6)]
      refine List.map_congr_left fun v hv => ?_
      exact ((alignedRead_ok fl.loc none (hxs v hv)).2.1 (hgood v hv)).1
    have h := hread hfl w
    rw [hvals, ← he] at h
    exact h.1

omit hc in
/-- A null field at the end is lost when no suffix is behind it. -/
theorem not_agrees_end {type : Ipv6Type} {bs : List Nat} {k : Nat}
    (he : ips = bs ++ List.replicate (k + 1) 0)
    (htext : prntIpv6 type ips = nullText (bs.map (numText 16))) :
    ¬ Ipv6Agrees type ips none := by
  have hlen := h8
  rw [he, List.length_append, List.length_replicate] at hlen
  have hbs : ∀ v ∈ bs, v < 65536 := fun v hv => hlt v (by rw [he]; simp [hv])
  obtain ⟨hok, hf⟩ := stdRead_all false hbs
  have e : fmtIpv6 type ips none = nullText ((bs.map stdRead).map HexRead.text) := by
    rw [fmtIpv6_eq, htext, map_text_stdRead]
    exact List.append_nil _
  refine not_agrees ⟨false, true, false, false⟩ (fun _ => rfl) [] fun P w _ => ?_
  by_cases h0 : bs = []
  · subst h0
    have e2 : fmtIpv6 type ips none = [0x3A, 0x3A] := e
    rw [e2] at w ⊢
    obtain ⟨only, h⟩ := parse_only_null w
    refine ⟨_, h, fun h => ?_⟩
    have hlen0 : 0 = 2 := congrArg ParsedIpv6.len (Except.ok.inj h)
    exact absurd hlen0 (by decide)
  · have hne : (bs.map stdRead).map HexRead.text ≠ [] := by simpa using h0
    rw [nullText, if_neg hne] at e
    rw [e] at w ⊢
    refine ⟨_, parse_end_null w hok hf (by simpa using h0) (by rw [List.length_map]; omega) ?_,
      fun h => by cases h⟩
    intro f hf
    obtain ⟨v, hv, rfl⟩ := List.mem_map.mp hf
    exact length_numText_le (.inr rfl) (by decide) (show v < 16 ^ 4 by have := hbs v hv; omega)

/-- A null field behind seven groups takes the length of the group before it. -/
theorem agrees_null_full {type : Ipv6Type} {bs : List Nat} {x c : Nat}
    (he : ips = bs ++ [x, 0]) (hsome : cidr = some c)
    (htext : prntIpv6 type ips = nullText ((bs ++ [x]).map (numText 16))) :
    Ipv6Agrees type ips cidr ↔ x < 16 := by
  subst hsome
  have hlen := h8
  rw [he, List.length_append] at hlen
  have hcc := hc c rfl
  have hx : x < 65536 := hlt x (by rw [he]; simp)
  have hbs : ∀ v ∈ bs ++ [x], v < 65536 := by
    intro v hv
    refine hlt v ?_
    rw [he]
    rcases List.mem_append.mp hv with hv | hv
    · simp [hv]
    · simp [List.mem_singleton.mp hv]
  have h7 : ((bs ++ [x]).map stdRead).length = 7 := by
    simp only [List.length_map, List.length_append, List.length_singleton]
    have : [x, 0].length = 2 := rfl
    omega
  have hlast : lastLen 0 ((bs ++ [x]).map stdRead) = (numText 16 x).length := by
    rw [List.map_append, List.map_singleton, lastLen_append]
    rfl
  have hnl := length_numText_le (b := 16) (.inr rfl) (show 1 ≤ 4 by omega)
    (show x < 16 ^ 4 by omega)
  have hcl := List.length_pos_iff.mpr (numText_ne_nil 10 c)
  have e : fmtIpv6 type ips (some c) =
      closed 0x3A (((bs ++ [x]).map stdRead).map HexRead.text) ++ 0x3A :: suffixText (some c) := by
    rw [fmtIpv6_eq, htext, map_text_stdRead, nullText, if_neg (by simp), List.append_assoc]
    rfl
  have hval : (bs ++ [x]) ++ [0] = ips := by rw [he, List.append_assoc]; rfl
  constructor
  · intro ha
    by_contra hge
    refine not_agrees ⟨false, true, false, false⟩ (fun _ => rfl) [0x7A, 0x7A, 0x7A]
      (fun P w w' => ?_) ha
    obtain ⟨hok, hf⟩ := stdRead_all false hbs
    have hnl2 : 2 ≤ (numText 16 x).length := by
      rw [numText_eq (by omega), List.length_map, digitList, List.length_reverse]
      exact (Nat.lt_digits_length_iff (show 1 < 16 by decide) x).mpr (by omega)
    rw [e] at w w' ⊢
    obtain ⟨r, hr, hcidr, hlen⟩ := stale_rest ⟨false, true, false, false⟩ ips w w' hnl2
      hnl (by simp only [List.length_cons, List.length_nil]; omega) (by decide)
    refine ⟨.ok r, parse_null_full w hok hf (clean_suffix c) h7 ?_, fun h => ?_⟩
    · rw [hlast, map_val_stdRead, hval]
      exact hr
    · obtain rfl : 128 = c := hcidr.symm.trans (congrArg ParsedIpv6.cidr (Except.ok.inj h))
      have h3 : (numText 10 128).length = 3 := by simp [numText]
      exact hlen (by omega) (congrArg ParsedIpv6.len (Except.ok.inj h))
  · intro hx16 E P s pos fl hfl w
    obtain ⟨hok, hf⟩ := stdRead_all fl.loc hbs
    rw [e] at w ⊢
    have hone : (numText 16 x).length = 1 := by
      have h1 := length_numText_le (b := 16) (.inr rfl) (Nat.le_refl 1) (show x < 16 ^ 1 by omega)
      have h2 := List.length_pos_iff.mpr (numText_ne_nil 16 x)
      omega
    have h := parse_null_full w hok hf (clean_suffix c) h7 fun u q => by
      rw [hlast, hone, map_val_stdRead, hval]
      exact rest_last (t := [0x3A]) fl (w.reads q) ips hfl hc
    exact h.1

/-- The compact form before an IPv4 address. -/
theorem agrees_ipv4Compact : Ipv6Agrees .ipv4Compact ips cidr := by
  have hlen : (ips.take 6).length = 6 := by rw [List.length_take, h8]; rfl
  have hclose : ∀ cs, joinGroups 0x3A (cs.map (numText 16)) ++ closing (ips.take 6) cs =
      closed 0x3A (cs.map (numText 16)) := by
    intro cs
    unfold closing
    by_cases h : cs = []
    · rw [h]
      simp [joinGroups]
    · rw [if_pos ⟨by omega, h⟩, joinGroups_close 0x3A (by simpa using h)]
  rcases numIpv6Compact_pos (ips.take 6) with ⟨-, h9⟩ | ⟨bs, k, cs, he, hpos, hhead, -, -⟩
  · refine agrees_ipv4 h8 hlt hc ?_
    change prntIpv6Compact (ips.take 6) _ ++ prntIpv4End ips = _
    rw [h9, prntIpv6Compact_groups (by omega), hclose]
  · refine agrees_null_ipv4 h8 hlt hc he ?_
    change prntIpv6Compact (ips.take 6) _ ++ prntIpv4End ips = _
    have h := prntIpv6Compact_null bs k hhead
    rw [← he, List.append_assoc, hclose, joinGroups_null] at h
    rw [hpos, h]

/-- The compact form. -/
theorem agrees_compact : Ipv6Agrees .compact ips cidr ↔
    if cidr.isSome then ¬ EndsStale ips else ¬ EndsLongest ips := by
  have hclose : ∀ cs, closing ips cs = [] := fun cs => if_neg fun h => h.1 h8
  rcases numIpv6Compact_pos ips with ⟨h0, h9⟩ | ⟨bs, k, cs, he, hpos, hhead, hshort, hlong⟩
  · have htext : prntIpv6 .compact ips = joinGroups 0x3A (ips.map (numText 16)) := by
      change prntIpv6Compact ips _ = _
      rw [h9, prntIpv6Compact_groups (by omega), hclose, List.append_nil]
    refine iff_of_true (agrees_join h8 hlt hc htext) ?_
    split
    · rintro ⟨as, x, e, -, -⟩
      exact h0 (by rw [e]; simp)
    · rintro ⟨as, n, e, -⟩
      exact h0 (by rw [e]; simp)
  · have htext : prntIpv6 .compact ips = nullText (bs.map (numText 16)) ++
        joinGroups 0x3A (cs.map (numText 16)) := by
      change prntIpv6Compact ips _ = _
      rw [hpos]
      have h := prntIpv6Compact_null bs k hhead
      rw [← he, hclose, List.append_nil, joinGroups_null] at h
      exact h
    by_cases hcs : cs = []
    · subst hcs
      rw [List.append_nil] at he
      have hno := hshort rfl
      replace htext : prntIpv6 .compact ips = nullText (bs.map (numText 16)) :=
        htext.trans (List.append_nil _)
      cases hcidr : cidr with
      | none =>
        rw [if_neg (by simp)]
        exact iff_of_false (not_agrees_end h8 hlt he htext) fun h => h ⟨bs, k, he, hno⟩
      | some c =>
        rw [if_pos (by simp), ← hcidr]
        cases k with
        | succ k =>
          refine iff_of_true (agrees_null_slash h8 hlt hc he hcidr htext) ?_
          rintro ⟨as, x, e, -, hx⟩
          rw [he, List.replicate_add k 2, ← List.append_assoc] at e
          have h2 : [0, 0] = [x, 0] := (List.append_inj' e rfl).2
          have : 0 = x := (List.cons.inj h2).1
          omega
        | zero =>
          have h0 : 0 ∉ bs := fun h => hno (by
            obtain ⟨pre, post, e⟩ := List.append_of_mem h
            exact ⟨pre, post, by rw [e]; simp⟩)
          obtain rfl | ⟨as, x, rfl⟩ := List.eq_nil_or_concat' bs
          · rw [he] at h8
            cases h8
          · have he' : ips = as ++ [x, 0] := by rw [he, List.append_assoc]; rfl
            rw [agrees_null_full h8 hlt hc he' hcidr htext]
            constructor
            · rintro hlt16 ⟨as', x', e, -, hx⟩
              rw [he'] at e
              have : x = x' := (List.cons.inj (List.append_inj' e rfl).2).1
              omega
            · intro hstale
              by_contra hge
              exact hstale ⟨as, x, he', fun h => h0 (by simp [h]), by omega⟩
    · refine iff_of_true (agrees_null_hex h8 hlt hc he hcs htext) ?_
      split
      · rintro ⟨as, x, e, h0, hx⟩
        have hd : (as ++ [x]) = (bs ++ List.replicate (k + 1) 0) ++ cs.dropLast := by
          have h1 : ips.dropLast = as ++ [x] := by
            rw [e, show as ++ [x, 0] = (as ++ [x]) ++ [0] by simp, List.dropLast_concat]
          rw [← h1, he, List.dropLast_append_of_ne_nil hcs]
        have hmem : 0 ∈ as ++ [x] := by
          rw [hd]
          simp
        rcases List.mem_append.mp hmem with h | h
        · exact h0 h
        · have := List.mem_singleton.mp h
          omega
      · exact fun h => hcs (hlong h)

end

/-- The formatter and the parser agree on exactly these addresses. -/
theorem ipv6_agrees_iff (type : Ipv6Type) (ips : Ipv6Groups) (cidr : Option (Fin 129)) :
    Ipv6Agrees type ips.val (cidr.map Fin.val) ↔
      Ipv6Readable type ips.val (cidr.map Fin.val) := by
  have h8 := ips.length
  have hlt := ips.lt
  have hc : ∀ c ∈ cidr.map Fin.val, c ≤ 128 := by
    intro c h
    obtain ⟨d, -, rfl⟩ := Option.map_eq_some_iff.mp h
    omega
  have hne : (ips.val.take 6).map (numText 16) ≠ [] := by
    intro h
    have := congrArg List.length h
    rw [List.length_map, List.length_take, h8] at this
    cases this
  cases type with
  | aligned => exact agrees_aligned h8 hlt hc
  | std => exact iff_of_true (agrees_join h8 hlt hc rfl) trivial
  | compact => exact agrees_compact h8 hlt hc
  | ipv4Aligned => exact agrees_ipv4Aligned h8 hlt hc
  | ipv4Std =>
    refine iff_of_true (agrees_ipv4 h8 hlt hc ?_) trivial
    rw [← joinGroups_close 0x3A hne]
    rfl
  | ipv4Compact => exact iff_of_true (agrees_ipv4Compact h8 hlt hc) trivial

/-- The address `1::`. -/
def oneAndZeros : Ipv6Groups := ⟨[1, 0, 0, 0, 0, 0, 0, 0], rfl, by decide⟩

/-- It is not read back from its compact form. -/
theorem ipv6_disagrees_null : fmtIpv6 .compact oneAndZeros.val none = [0x31, 0x3A, 0x3A] ∧
    ¬ Ipv6Agrees .compact oneAndZeros.val none := by
  have htext : prntIpv6 .compact oneAndZeros.val = nullText ([1].map (numText 16)) := by decide
  have e : fmtIpv6 .compact oneAndZeros.val none = [0x31, 0x3A, 0x3A] := by decide
  exact ⟨e, not_agrees_end (k := 6) oneAndZeros.length oneAndZeros.lt rfl htext⟩

end Vstr
