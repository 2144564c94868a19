import Vstr.Parse.IpText

/-!
# Addresses that are read back

The text of an IPv6 address, cut into its fields, and what `vstr_parse_ipv6` reads from it.
-/

namespace Vstr

open Memory Splice Query

variable {E : Env} {P : Own} {s : St} {pos len v : Nat} {loc : Bool} {fl : ParseIpv6Flags}
  {fs gs : List HexRead} {t g : List UInt8} {cidr : Option Nat} {rest : List (Option UInt8)}

/-! ## Fields in a slice -/

/-- Fields with separators behind them are in their sections. -/
theorem holds_closed {ps : List (List UInt8)} {sep : UInt8}
    (w : Window E P s pos len ((closed sep ps).map some ++ rest)) :
    Holds E P s (fieldsAt pos ps) ps := by
  induction ps generalizing pos len with
  | nil => exact .nil
  | cons g ps ih =>
    rw [closed_cons, List.map_append, List.map_cons, List.append_assoc, List.cons_append] at w
    refine .cons ?_ (ih w.behindSep)
    have h := w.front
    rwa [List.length_map] at h

/-- The text before the fields behind a null field. -/
def nullText (ps : List (List UInt8)) : List UInt8 :=
  if ps = [] then [0x3A, 0x3A] else closed 0x3A ps ++ [0x3A]

/-- A null field before others. -/
theorem sects_nullText {ps qs : List (List UInt8)}
    (w : Window E P s pos len ((nullText ps ++ joinGroups 0x3A qs).map some))
    (hf : Fields 0x3A ps) (hf' : Fields 0x3A qs) (hne : qs ≠ [])
    (hps : ps.length + 1 + qs.length ≤ 8) :
    Yields Reads (parseIpv6Sects pos len) s (fieldsAt pos ps ++
      ⟨pos + (closed 0x3A ps).length, 0⟩ :: fieldsAt (pos + (nullText ps).length) qs) := by
  unfold nullText at w ⊢
  by_cases h : ps = []
  · subst h
    rw [if_pos rfl] at w ⊢
    exact sects_beg w hf' hne (by rw [List.length_nil] at hps; omega)
  · rw [if_neg h] at w ⊢
    rw [List.append_assoc, List.singleton_append] at w
    rw [List.length_append, List.length_singleton, ← Nat.add_assoc]
    exact sects_mid w hf hf' h hne hps

/-- Fields whose number was read are no null fields. -/
theorem HexRead.Ok.fields (hfs : ∀ f ∈ fs, f.Ok loc) (hsep : ∀ f ∈ fs, 0x3A ∉ f.text) :
    Fields 0x3A (fs.map HexRead.text) := by
  intro g hg
  obtain ⟨f, hf, rfl⟩ := List.mem_map.mp hg
  exact ⟨(hfs f hf).text_ne_nil, hsep f hf⟩

/-! ## The kinds of addresses -/

/-- What a field may hold besides its number. -/
structure Clean (g : List UInt8) : Prop where
  /-- The field is not empty. -/
  ne_nil : g ≠ []
  /-- No separator. -/
  colon : 0x3A ∉ g

theorem Fields.concat {ps : List (List UInt8)} (h : Fields 0x3A ps) (hg : Clean g) :
    Fields 0x3A (ps ++ [g]) := by
  intro g' hg'
  rcases List.mem_append.mp hg' with hg' | hg'
  · exact h g' hg'
  · obtain rfl := List.mem_singleton.mp hg'
    exact ⟨hg.ne_nil, hg.colon⟩

theorem joinGroups_concat (ps : List (List UInt8)) (g : List UInt8) :
    joinGroups 0x3A (ps ++ [g]) = closed 0x3A ps ++ g := by
  rw [joinGroups_append 0x3A ps (List.cons_ne_nil g [])]
  simp [joinGroups]

/-- The sections of an address without a null field. -/
theorem groups_sects {ps : List (List UInt8)}
    (w : Window E P s pos len ((closed 0x3A ps ++ g).map some)) (h2 : 2 ≤ len)
    (hf : Fields 0x3A ps) (hg : Clean g) (h8 : ps.length ≤ 7) :
    Yields Reads (parseIpv6Sects pos len) s
      (fieldsAt pos ps ++ [⟨pos + (closed 0x3A ps).length, g.length⟩]) := by
  rw [← joinGroups_concat] at w
  have h := sects_fields w h2 (hf.concat hg) (by simp)
    (by simp only [List.length_append, List.length_singleton]; omega)
  rwa [fieldsAt_append 0x3A] at h

/-- The groups of an address without a null field. -/
theorem groups_ready (w : Window E P s pos len
      ((closed 0x3A (fs.map HexRead.text) ++ g).map some))
    (h2 : 2 ≤ len) (hfs : ∀ f ∈ fs, f.Ok loc) (hf : Fields 0x3A (fs.map HexRead.text))
    (hg : Clean g) (h8 : fs.length ≤ 7) :
    Yields Reads (parseIpv6Sects pos len) s (fieldsAt pos (fs.map HexRead.text) ++
        [⟨pos + (closed 0x3A (fs.map HexRead.text)).length, g.length⟩]) ∧
      Leads s loc ((fieldsAt pos (fs.map HexRead.text)).length + 1)
        (fieldsAt pos (fs.map HexRead.text)) 0 (lastLen 0 fs) (fs.map HexRead.val) := by
  refine ⟨groups_sects w h2 hf hg (by simpa using h8), ?_⟩
  rw [List.map_append] at w
  exact leads_fields (holds_closed w) hfs (by omega) _

/-- The sections of an address with a null field. -/
theorem null_sects {ps qs : List (List UInt8)}
    (w : Window E P s pos len ((nullText ps ++ closed 0x3A qs ++ g).map some))
    (hf : Fields 0x3A ps) (hf' : Fields 0x3A qs) (hg : Clean g)
    (h8 : ps.length + qs.length ≤ 6) :
    Yields Reads (parseIpv6Sects pos len) s
        ((fieldsAt pos ps ++ ⟨pos + (closed 0x3A ps).length, 0⟩ ::
          fieldsAt (pos + (nullText ps).length) qs) ++
            [⟨pos + (nullText ps ++ closed 0x3A qs).length, g.length⟩]) ∧
      Holds E P s (fieldsAt pos ps) ps ∧
        Holds E P s (fieldsAt (pos + (nullText ps).length) qs) qs := by
  refine ⟨?_, ?_, ?_⟩
  · have w' := w
    rw [List.append_assoc, ← joinGroups_concat] at w'
    have h := sects_nullText w' hf (hf'.concat hg) (by simp)
      (by simp only [List.length_append, List.length_singleton]; omega)
    rw [fieldsAt_append 0x3A] at h
    rw [List.length_append, ← Nat.add_assoc, List.append_assoc, List.cons_append]
    exact h
  · obtain ⟨ys, hys⟩ : ∃ ys, (nullText ps).map some = (closed 0x3A ps).map some ++ ys := by
      unfold nullText
      split
      · rename_i h
        rw [h]
        exact ⟨_, rfl⟩
      · exact ⟨_, List.map_append⟩
    rw [List.append_assoc, List.map_append, hys, List.append_assoc] at w
    exact holds_closed w
  · rw [List.append_assoc, List.map_append] at w
    have w2 := w.behind
    rw [List.length_map, List.map_append] at w2
    exact holds_closed w2

/-- The groups of an address with a null field. -/
theorem null_ready (w : Window E P s pos len
      ((nullText (fs.map HexRead.text) ++ closed 0x3A (gs.map HexRead.text) ++ g).map some))
    (hfs : ∀ f ∈ fs, f.Ok loc) (hf : Fields 0x3A (fs.map HexRead.text))
    (hgs : ∀ f ∈ gs, f.Ok loc) (hf' : Fields 0x3A (gs.map HexRead.text))
    (hg : Clean g) (h8 : fs.length + gs.length ≤ 6) :
    ∃ xs : List Sect, xs.length = fs.length + 1 + gs.length ∧
      Yields Reads (parseIpv6Sects pos len) s (xs ++
        [⟨pos + (nullText (fs.map HexRead.text) ++ closed 0x3A (gs.map HexRead.text)).length,
          g.length⟩]) ∧
      Leads s loc (xs.length + 1) xs (fs.length + 1) (lastLen (lastLen 0 fs) gs)
        (fs.map HexRead.val ++ [0] ++ gs.map HexRead.val) := by
  obtain ⟨hsects, hold, hold'⟩ := null_sects w hf hf' hg (by simpa using h8)
  refine ⟨_, ?_, hsects, leads_null _ hold hfs hold' hgs (by omega) _⟩
  simp
  omega

/-- Eight groups. -/
theorem ipv6Spread_groups {nl : Nat} {done : List Nat} (h : done.length = 8) :
    ipv6Spread (.having 0 nl done) = done := by
  rw [ipv6Spread_eight h (by simp [Ipv6Loop.having, h]) (Nat.zero_le _)]
  simp [Ipv6Loop.having, h]

/-- The end of an address is read with these groups. -/
theorem groups_read {l : Nat} {res : Except ParseIpv6Err ParsedIpv6}
    (w : Window E P s pos len ((closed 0x3A (fs.map HexRead.text) ++ g).map some))
    (hfs : ∀ f ∈ fs, f.Ok fl.loc) (hf : Fields 0x3A (fs.map HexRead.text))
    (hg : Clean g) (hok : HexRead.Ok fl.loc ⟨g, v, l⟩) (hdot : 0x2E ∉ g) (h7 : fs.length = 7)
    (hrest : ∀ u, Reads s u → Yields Reads (parseIpv6Rest fl len
      (pos + (closed 0x3A (fs.map HexRead.text)).length + l)
      (sizeSub (len - (pos + (closed 0x3A (fs.map HexRead.text)).length - pos)) l)
      (fs.map HexRead.val ++ [v])) u res) :
    Yields Reads (parseIpv6 fl pos len) s res := by
  have hl := w.length
  have hc := hf.length_closed
  rw [List.length_map] at hc
  rw [List.length_map, List.length_append] at hl
  obtain ⟨hsects, hleads⟩ := groups_ready w (by omega) hfs hf hg (by omega)
  rw [List.map_append] at w
  have wl := w.behind
  rw [List.length_map, show len - (closed 0x3A (fs.map HexRead.text)).length = g.length by omega]
    at wl
  refine parse_hex_of wl (by omega) hsects hleads hok (by simp) (by simp; omega) (Nat.zero_le _)
    (fun _ => by simpa using h7) hdot ?_
  rw [ipv6Spread_groups (by simp [h7])]
  exact hrest

/-- Eight groups and a suffix. -/
theorem parse_groups
    (w : Window E P s pos len
      ((closed 0x3A (fs.map HexRead.text) ++ (t ++ suffixText cidr)).map some))
    (hfs : ∀ f ∈ fs, f.Ok fl.loc) (hf : Fields 0x3A (fs.map HexRead.text))
    (hg : Clean (t ++ suffixText cidr))
    (hok : HexRead.Ok fl.loc ⟨t ++ suffixText cidr, v, t.length⟩)
    (hdot : 0x2E ∉ t ++ suffixText cidr) (h7 : fs.length = 7)
    (hfl : cidr.isSome = true → fl.cidr = true) (hc : ∀ c ∈ cidr, c ≤ 128) :
    Yields Reads (parseIpv6 fl pos len) s
      (.ok ⟨fs.map HexRead.val ++ [v], cidr.getD 128, len, false⟩) :=
  groups_read w hfs hf hg hok hdot h7 fun _ q => rest_last fl (w.reads q) _ hfl hc

/-- The end of an address is read with six groups and an IPv4 address. -/
theorem groups_ipv4_read {a b c d : Nat} {res : Except ParseIpv6Err ParsedIpv6}
    (w : Window E P s pos len
      ((closed 0x3A (fs.map HexRead.text) ++ (ipv4Text a b c d ++ suffixText cidr)).map some))
    (hfs : ∀ f ∈ fs, f.Ok fl.loc) (hf : Fields 0x3A (fs.map HexRead.text))
    (hg : Clean (ipv4Text a b c d ++ suffixText cidr)) (h6 : fs.length = 6)
    (ha : a ≤ 255) (hb : b ≤ 255) (hc : c ≤ 255) (hd : d ≤ 255)
    (hrest : ∀ u, Reads s u → Yields Reads (parseIpv6Rest fl len
      (pos + (closed 0x3A (fs.map HexRead.text)).length + (ipv4Text a b c d).length)
      (sizeSub (len - (pos + (closed 0x3A (fs.map HexRead.text)).length - pos))
        (ipv4Text a b c d).length)
      (fs.map HexRead.val ++ [b + a * 256, d + c * 256])) u res) :
    Yields Reads (parseIpv6 fl pos len) s res := by
  have hl := w.length
  have hclosed := hf.length_closed
  rw [List.length_map] at hclosed
  rw [List.length_map, List.length_append] at hl
  obtain ⟨hsects, hleads⟩ := groups_ready w (by omega) hfs hf hg (by omega)
  refine parse_ipv4_of w hsects hleads (by simp) (by simp; omega) (fun _ => by simpa using h6)
    ha hb hc hd ?_
  rwa [ipv6Spread_groups (by simp [h6])]

/-- Six groups, an IPv4 address and a suffix. -/
theorem parse_groups_ipv4 {a b c d : Nat}
    (w : Window E P s pos len
      ((closed 0x3A (fs.map HexRead.text) ++ (ipv4Text a b c d ++ suffixText cidr)).map some))
    (hfs : ∀ f ∈ fs, f.Ok fl.loc) (hf : Fields 0x3A (fs.map HexRead.text))
    (hg : Clean (ipv4Text a b c d ++ suffixText cidr)) (h6 : fs.length = 6)
    (ha : a ≤ 255) (hb : b ≤ 255) (hc : c ≤ 255) (hd : d ≤ 255)
    (hfl : cidr.isSome = true → fl.cidr = true) (hcidr : ∀ c ∈ cidr, c ≤ 128) :
    Yields Reads (parseIpv6 fl pos len) s
      (.ok ⟨fs.map HexRead.val ++ [b + a * 256, d + c * 256], cidr.getD 128, len, false⟩) :=
  groups_ipv4_read w hfs hf hg h6 ha hb hc hd fun _ q => rest_last fl (w.reads q) _ hfl hcidr

/-- The text before a null field is not too short. -/
theorem Fields.length_nullText {ps : List (List UInt8)} (hf : Fields 0x3A ps) :
    2 ≤ (nullText ps).length := by
  unfold nullText
  split
  · exact Nat.le_refl _
  · rename_i hne
    have := List.length_pos_iff.mpr hne
    have := hf.length_closed
    rw [List.length_append, List.length_singleton]
    omega

/-- The end of an address is read with groups around a null field. -/
theorem null_read {l : Nat} {res : Except ParseIpv6Err ParsedIpv6}
    (w : Window E P s pos len ((nullText (fs.map HexRead.text) ++
      closed 0x3A (gs.map HexRead.text) ++ g).map some))
    (hfs : ∀ f ∈ fs, f.Ok fl.loc) (hf : Fields 0x3A (fs.map HexRead.text))
    (hgs : ∀ f ∈ gs, f.Ok fl.loc) (hf' : Fields 0x3A (gs.map HexRead.text))
    (hg : Clean g) (hok : HexRead.Ok fl.loc ⟨g, v, l⟩) (hdot : 0x2E ∉ g)
    (h8 : fs.length + gs.length ≤ 6)
    (hrest : ∀ u, Reads s u → Yields Reads (parseIpv6Rest fl len
      (pos + (nullText (fs.map HexRead.text) ++ closed 0x3A (gs.map HexRead.text)).length + l)
      (sizeSub (len - (pos + (nullText (fs.map HexRead.text) ++
        closed 0x3A (gs.map HexRead.text)).length - pos)) l)
      (fs.map HexRead.val ++ List.replicate (8 - fs.length - (gs.length + 1)) 0 ++
        (gs.map HexRead.val ++ [v]))) u res) :
    Yields Reads (parseIpv6 fl pos len) s res := by
  have hl := w.length
  have hlen : 2 ≤ len := by
    have := hf.length_nullText
    rw [List.length_map, List.length_append, List.length_append] at hl
    omega
  obtain ⟨xs, hxs, hsects, hleads⟩ := null_ready w hfs hf hgs hf' hg h8
  have e : ipv6Spread (.having (fs.length + 1) l
      (fs.map HexRead.val ++ [0] ++ gs.map HexRead.val ++ [v])) =
      fs.map HexRead.val ++ List.replicate (8 - fs.length - (gs.length + 1)) 0 ++
        (gs.map HexRead.val ++ [v]) := by
    have := ipv6Spread_null l (fs.map HexRead.val) (gs.map HexRead.val ++ [v])
      (by simp only [List.length_append, List.length_map, List.length_singleton]; omega)
    rw [List.length_map, List.length_append, List.length_map, List.length_singleton] at this
    rw [← this, List.append_assoc _ _ [v]]
  rw [List.map_append] at w
  have wl := w.behind
  rw [List.length_map] at wl
  rw [List.length_map, List.length_append] at hl
  rw [show len - (nullText (fs.map HexRead.text) ++ closed 0x3A (gs.map HexRead.text)).length =
    g.length by omega] at wl
  refine parse_hex_of wl hlen hsects hleads hok (by simp; omega) (by simp; omega) (by simp)
    (fun h => absurd h (by omega)) hdot ?_
  rwa [e]

/-- A null field, and groups behind it. -/
theorem parse_null_hex
    (w : Window E P s pos len ((nullText (fs.map HexRead.text) ++
      closed 0x3A (gs.map HexRead.text) ++ (t ++ suffixText cidr)).map some))
    (hfs : ∀ f ∈ fs, f.Ok fl.loc) (hf : Fields 0x3A (fs.map HexRead.text))
    (hgs : ∀ f ∈ gs, f.Ok fl.loc) (hf' : Fields 0x3A (gs.map HexRead.text))
    (hg : Clean (t ++ suffixText cidr))
    (hok : HexRead.Ok fl.loc ⟨t ++ suffixText cidr, v, t.length⟩)
    (hdot : 0x2E ∉ t ++ suffixText cidr) (h8 : fs.length + gs.length ≤ 6)
    (hfl : cidr.isSome = true → fl.cidr = true) (hc : ∀ c ∈ cidr, c ≤ 128) :
    Yields Reads (parseIpv6 fl pos len) s
      (.ok ⟨fs.map HexRead.val ++ List.replicate (8 - fs.length - (gs.length + 1)) 0 ++
        (gs.map HexRead.val ++ [v]), cidr.getD 128, len, false⟩) :=
  null_read w hfs hf hgs hf' hg hok hdot h8 fun _ q => rest_last fl (w.reads q) _ hfl hc

/-- The end of an address is read with groups around a null field and an IPv4 address. -/
theorem null_ipv4_read {a b c d : Nat} {res : Except ParseIpv6Err ParsedIpv6}
    (w : Window E P s pos len ((nullText (fs.map HexRead.text) ++
      closed 0x3A (gs.map HexRead.text) ++ (ipv4Text a b c d ++ suffixText cidr)).map some))
    (hfs : ∀ f ∈ fs, f.Ok fl.loc) (hf : Fields 0x3A (fs.map HexRead.text))
    (hgs : ∀ f ∈ gs, f.Ok fl.loc) (hf' : Fields 0x3A (gs.map HexRead.text))
    (hg : Clean (ipv4Text a b c d ++ suffixText cidr)) (h8 : fs.length + gs.length ≤ 5)
    (ha : a ≤ 255) (hb : b ≤ 255) (hc : c ≤ 255) (hd : d ≤ 255)
    (hrest : ∀ u, Reads s u → Yields Reads (parseIpv6Rest fl len
      (pos + (nullText (fs.map HexRead.text) ++ closed 0x3A (gs.map HexRead.text)).length +
        (ipv4Text a b c d).length)
      (sizeSub (len - (pos + (nullText (fs.map HexRead.text) ++
        closed 0x3A (gs.map HexRead.text)).length - pos)) (ipv4Text a b c d).length)
      (fs.map HexRead.val ++ List.replicate (8 - fs.length - (gs.length + 2)) 0 ++
        (gs.map HexRead.val ++ [b + a * 256, d + c * 256]))) u res) :
    Yields Reads (parseIpv6 fl pos len) s res := by
  obtain ⟨xs, hxs, hsects, hleads⟩ := null_ready w hfs hf hgs hf' hg (by omega)
  have e : ipv6Spread (.having (fs.length + 1) (ipv4Text a b c d).length
      (fs.map HexRead.val ++ [0] ++ gs.map HexRead.val ++ [b + a * 256, d + c * 256])) =
      fs.map HexRead.val ++ List.replicate (8 - fs.length - (gs.length + 2)) 0 ++
        (gs.map HexRead.val ++ [b + a * 256, d + c * 256]) := by
    have := ipv6Spread_null (ipv4Text a b c d).length (fs.map HexRead.val)
      (gs.map HexRead.val ++ [b + a * 256, d + c * 256])
      (by simp only [List.length_append, List.length_map, List.length_cons, List.length_nil]; omega)
    rw [List.length_map, List.length_append, List.length_map,
      show [b + a * 256, d + c * 256].length = 2 from rfl] at this
    rw [← this, List.append_assoc _ _ [b + a * 256, d + c * 256]]
  refine parse_ipv4_of w hsects hleads (by simp; omega) (by simp; omega)
    (fun h => absurd h (by omega)) ha hb hc hd ?_
  rwa [e]

/-- A null field, groups and an IPv4 address. -/
theorem parse_null_ipv4 {a b c d : Nat}
    (w : Window E P s pos len ((nullText (fs.map HexRead.text) ++
      closed 0x3A (gs.map HexRead.text) ++ (ipv4Text a b c d ++ suffixText cidr)).map some))
    (hfs : ∀ f ∈ fs, f.Ok fl.loc) (hf : Fields 0x3A (fs.map HexRead.text))
    (hgs : ∀ f ∈ gs, f.Ok fl.loc) (hf' : Fields 0x3A (gs.map HexRead.text))
    (hg : Clean (ipv4Text a b c d ++ suffixText cidr)) (h8 : fs.length + gs.length ≤ 5)
    (ha : a ≤ 255) (hb : b ≤ 255) (hc : c ≤ 255) (hd : d ≤ 255)
    (hfl : cidr.isSome = true → fl.cidr = true) (hcidr : ∀ c ∈ cidr, c ≤ 128) :
    Yields Reads (parseIpv6 fl pos len) s
      (.ok ⟨fs.map HexRead.val ++ List.replicate (8 - fs.length - (gs.length + 2)) 0 ++
        (gs.map HexRead.val ++ [b + a * 256, d + c * 256]), cidr.getD 128, len, false⟩) :=
  null_ipv4_read w hfs hf hgs hf' hg h8 ha hb hc hd fun _ q =>
    rest_last fl (w.reads q) _ hfl hcidr

/-- The end of an address is read with groups before a null field. -/
theorem null_slash_read {c : Nat} {res : Except ParseIpv6Err ParsedIpv6}
    (w : Window E P s pos len ((nullText (fs.map HexRead.text) ++ suffixText (some c)).map some))
    (hfs : ∀ f ∈ fs, f.Ok fl.loc) (hf : Fields 0x3A (fs.map HexRead.text))
    (hg : Clean (suffixText (some c))) (h6 : fs.length ≤ 6)
    (hrest : ∀ u, Reads s u → Yields Reads (parseIpv6Rest fl len
      (pos + (nullText (fs.map HexRead.text)).length + 0)
      (sizeSub (len - (pos + (nullText (fs.map HexRead.text)).length - pos)) 0)
      (fs.map HexRead.val ++ List.replicate (8 - fs.length) 0)) u res) :
    Yields Reads (parseIpv6 fl pos len) s res := by
  have hl := w.length
  have hlen : 2 ≤ len := by
    have := hf.length_nullText
    rw [List.length_map, List.length_append] at hl
    omega
  have hnil : closed 0x3A (([] : List HexRead).map HexRead.text) = [] := rfl
  have w' := w
  rw [← List.append_nil (nullText (fs.map HexRead.text)), ← hnil] at w'
  obtain ⟨xs, hxs, hsects, hleads⟩ := null_ready w' hfs hf (fun f hf => by cases hf)
    (fun f hf => by cases hf) hg (by simpa using h6)
  rw [hnil, List.append_nil] at hsects
  rw [List.map_nil, List.append_nil] at hleads
  have hd : (fs.map HexRead.val ++ [0]).length = fs.length + 1 := by simp
  rw [← hd] at hleads
  rw [List.length_nil] at hxs
  refine parse_slash_of w hlen hsects hleads (by rw [hd]; omega) (by simp) (by rw [hd]; omega) ?_
  rwa [hd, List.append_assoc, List.singleton_append, ← List.replicate_succ,
    show 8 - (fs.length + 1) + 1 = 8 - fs.length by omega]

/-- A null field and a suffix. -/
theorem parse_null_slash {c : Nat}
    (w : Window E P s pos len ((nullText (fs.map HexRead.text) ++ suffixText (some c)).map some))
    (hfs : ∀ f ∈ fs, f.Ok fl.loc) (hf : Fields 0x3A (fs.map HexRead.text))
    (hg : Clean (suffixText (some c))) (h6 : fs.length ≤ 6) (hfl : fl.cidr = true)
    (hc : c ≤ 128) :
    Yields Reads (parseIpv6 fl pos len) s
      (.ok ⟨fs.map HexRead.val ++ List.replicate (8 - fs.length) 0, c, len, false⟩) :=
  null_slash_read w hfs hf hg h6 fun _ q =>
    rest_last (t := []) fl (w.reads q) _ (fun _ => hfl) fun d (hd : d ∈ some c) => by
      obtain rfl := Option.mem_some_iff.mp hd
      exact hc

/-- A null field behind seven groups, and a suffix. -/
theorem parse_null_full {c : Nat} {res : Except ParseIpv6Err ParsedIpv6}
    (w : Window E P s pos len
      ((closed 0x3A (fs.map HexRead.text) ++ 0x3A :: suffixText (some c)).map some))
    (hfs : ∀ f ∈ fs, f.Ok fl.loc) (hf : Fields 0x3A (fs.map HexRead.text))
    (hg : Clean (suffixText (some c))) (h7 : fs.length = 7)
    (hrest : ∀ u, Reads s u → Yields Reads (parseIpv6Rest fl len
      (pos + (closed 0x3A (fs.map HexRead.text)).length + lastLen 0 fs)
      (sizeSub (len - (pos + (closed 0x3A (fs.map HexRead.text)).length - pos)) (lastLen 0 fs))
      (fs.map HexRead.val ++ [0])) u res) :
    Yields Reads (parseIpv6 fl pos len) s res := by
  have hl := w.length
  have hc := hf.length_closed
  rw [List.length_map] at hc
  rw [List.length_map, List.length_append] at hl
  have hj : joinGroups 0x3A [suffixText (some c)] = suffixText (some c) := by simp [joinGroups]
  have wj : Window E P s pos len ((closed 0x3A (fs.map HexRead.text) ++
      0x3A :: joinGroups 0x3A [suffixText (some c)]).map some) := by
    rw [hj]
    exact w
  have hfg : Fields 0x3A [suffixText (some c)] := by
    intro g' hg'
    obtain rfl := List.mem_singleton.mp hg'
    exact ⟨hg.ne_nil, hg.colon⟩
  have hsects := sects_full wj hf hfg (by simp) (by simpa using h7)
  have hd : (fs.map HexRead.val ++ [0]).length = 8 := by simp [h7]
  rw [List.map_append] at w
  have hleads := leads_null_end (pos + (closed 0x3A (fs.map HexRead.text)).length)
    (holds_closed w) hfs (by omega) 8
  rw [h7] at hleads
  have hlast : (fieldsAt pos (fs.map HexRead.text) ++
      [(⟨pos + (closed 0x3A (fs.map HexRead.text)).length, 0⟩ : Sect)]).getD 7 ⟨0, 0⟩ =
      ⟨pos + (closed 0x3A (fs.map HexRead.text)).length, 0⟩ := by
    have h := getD_last (fieldsAt pos (fs.map HexRead.text))
      ⟨pos + (closed 0x3A (fs.map HexRead.text)).length, 0⟩
    rwa [length_fieldsAt, List.length_map, h7] at h
  have hspread : ipv6Spread (.having 8 (lastLen 0 fs) (fs.map HexRead.val ++ [0])) =
      fs.map HexRead.val ++ [0] := by
    rw [ipv6Spread_eight hd (by simp [Ipv6Loop.having, hd]) (Nat.le_refl _)]
    simp [Ipv6Loop.having, hd]
  refine parseIpv6_yields (.having 8 (lastLen 0 fs) (fs.map HexRead.val ++ [0]))
    (.having 8 (lastLen 0 fs) (fs.map HexRead.val ++ [0])) (by omega) hsects ?_ ?_ ?_ (.inl hd) ?_
  · intro u q
    have h := hleads u [] _ q fun u' _ => .pure _ _
    rw [List.append_nil] at h
    rw [show (fieldsAt pos (fs.map HexRead.text) ++ [(⟨pos +
      (closed 0x3A (fs.map HexRead.text)).length, 0⟩ : Sect)]).length = 8 by simp [h7]]
    exact h
  · intro hne
    exact absurd hd hne
  · intro _
    refine ⟨rfl, ?_⟩
    rw [hspread]
    simp [Ipv6Loop.having, hd]
  · rw [hspread, show (Ipv6Loop.having 8 (lastLen 0 fs) (fs.map HexRead.val ++ [0])).scan = 8
      from hd, hlast]
    exact hrest

/-- A null field at the end is not seen, and the address is not full. -/
theorem parse_end_null
    (w : Window E P s pos len ((closed 0x3A (fs.map HexRead.text) ++ [0x3A]).map some))
    (hfs : ∀ f ∈ fs, f.Ok fl.loc) (hf : Fields 0x3A (fs.map HexRead.text)) (hne : fs ≠ [])
    (h7 : fs.length ≤ 7) (h4 : ∀ f ∈ fs, f.text.length ≤ 4) :
    Yields Reads (parseIpv6 fl pos len) s (.error .ipv6Full) := by
  have hl := w.length
  have hc := hf.length_closed
  have hpos := List.length_pos_iff.mpr hne
  rw [List.length_map] at hc
  rw [List.length_map, List.length_append, List.length_singleton] at hl
  have hsects := sects_end w hf (by simpa using hne) (by simpa using h7)
  rw [List.map_append] at w
  have hold := holds_closed w
  have hleads := leads_fields hold hfs (by omega) (fieldsAt pos (fs.map HexRead.text)).length
  have hshort : ∀ x ∈ fieldsAt pos (fs.map HexRead.text), x.len ≤ 4 := by
    have hall : ∀ {xs : List Sect} {ps : List (List UInt8)}, Holds E P s xs ps →
        (∀ p ∈ ps, p.length ≤ 4) → ∀ x ∈ xs, x.len ≤ 4 := by
      intro xs ps hold hps
      induction hold with
      | nil => exact fun x hx => by cases hx
      | cons w hold ih =>
        intro x hx
        rcases List.mem_cons.mp hx with rfl | hx
        · have := w.length
          have := hps _ List.mem_cons_self
          rw [List.length_map] at *
          omega
        · exact ih (fun p hp => hps p (List.mem_cons_of_mem _ hp)) x hx
    refine hall hold fun p hp => ?_
    obtain ⟨f, hf, rfl⟩ := List.mem_map.mp hp
    exact h4 f hf
  have hlast : ((fieldsAt pos (fs.map HexRead.text)).getD (fs.length - 1) ⟨0, 0⟩).len ≤ 4 := by
    have hlt : fs.length - 1 < (fieldsAt pos (fs.map HexRead.text)).length := by
      rw [length_fieldsAt, List.length_map]
      omega
    rw [List.getD_eq_getElem?_getD, List.getElem?_eq_getElem hlt]
    exact hshort _ (List.getElem_mem hlt)
  unfold parseIpv6
  dsimp only
  rw [if_neg (by omega)]
  refine hsects.bind fun u q => ?_
  have h := hleads u [] _ q fun u' _ => .pure _ _
  rw [List.append_nil] at h
  refine h.bind fun u' q' => ?_
  dsimp only
  have hscan : (Ipv6Loop.having 0 (lastLen 0 fs) (fs.map HexRead.val)).scan = fs.length :=
    List.length_map _
  rw [hscan, if_pos (by omega), parseIpv6End, if_neg fun h => absurd h.1 (Nat.not_lt.mpr hlast)]
  refine (Yields.pure u' _).bind fun u'' q'' => ?_
  rw [if_pos ⟨by omega, rfl⟩]
  exact .pure _ _

/-- A null field and nothing else is read, with a length of zero. -/
theorem parse_only_null (w : Window E P s pos len [some 0x3A, some 0x3A]) :
    ∃ only, Yields Reads (parseIpv6 fl pos len) s
      (.ok ⟨List.replicate 8 0, 128, 0, only⟩) := by
  have hl : 2 = len := w.length
  subst hl
  have hnil : Holds E P s [] (([] : List HexRead).map HexRead.text) := .nil
  have hno : ∀ g ∈ ([] : List HexRead), g.Ok fl.loc := fun g hg => by cases hg
  have hleads := leads_null_end pos hnil hno (by decide) 1
  refine ⟨decide (2 ≠ 0 ∧ fl.only = true), ?_⟩
  refine parseIpv6_yields (.having 1 0 [0]) (.having 1 0 [0]) (Nat.le_refl _) (sects_null w)
    ?_ ?_ ?_ (.inr (by decide)) ?_
  · intro u q
    exact hleads u [] _ q fun u' _ => .pure _ _
  · intro _ u q
    exact .pure _ _
  · intro h
    exact absurd h (by decide)
  · intro u q
    have hsub : sizeSub (2 - (pos - pos)) 0 = 2 := by
      rw [Nat.sub_self]
      rfl
    change Yields Reads (parseIpv6Rest fl 2 (pos + 0) (sizeSub (2 - (pos - pos)) 0) _) u _
    rw [hsub]
    exact rest_other fl 2 _ (w.reads q) (by decide) (by decide)

end Vstr
