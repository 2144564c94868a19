import Mathlib.Data.List.Perm.Subperm
import Vstr.Fmt.Fill

/-!
# Calls

The text that a call adds: the text of the format, and the numbers with their arguments. When
no argument is named, the conversions take the arguments one after the other.
-/

namespace Vstr.Fmt

variable {α β : Type} {N k : Nat} {u : Nat → Option Nat} {x : Nat → Int} {vs : List Int}

/-! ## A call -/

/-- What is added for the conversions of a format. -/
def printed (N : Nat) (x : Nat → Int) : (Nat → Option Nat) → List (Directive Nat) →
    List (List UInt8)
  | _, [] => []
  | u, d :: ds =>
    (FmtItem.num (fillTo N N N u x d.spec)).text :: printed N x (takenBy u x (.num d.spec)) ds

/-- A format with a text for each conversion. -/
def Format.withTexts (F : Format α) (ts : List (List UInt8)) : List UInt8 :=
  F.head ++ (List.zipWith (· ++ ·) ts (F.convs.map Prod.snd)).flatten

/-- Text takes no arguments. -/
theorem fillItems_append (k : Nat) (x : Nat → Int) (u : Nat → Option Nat) {ts : List FmtItem}
    (hts : ∀ spec, .num spec ∉ ts) (items : List FmtItem) :
    fillItems k x u (ts ++ items) = ts ++ fillItems k x u items := by
  induction ts with
  | nil => rfl
  | cons t ts ih =>
    have h := ih fun spec hs => hts spec (List.mem_cons_of_mem _ hs)
    cases t with
    | str s => exact congrArg (FmtItem.str s :: ·) h
    | chr c => exact congrArg (FmtItem.chr c :: ·) h
    | num spec => exact absurd List.mem_cons_self (hts spec)

/-- The texts of the conversions, with the text behind each. -/
theorem fillItems_convItems (N : Nat) (x : Nat → Int) (u : Nat → Option Nat)
    (cs : List (Directive Nat × List UInt8)) :
    (fillItems N x u (convItems cs)).flatMap FmtItem.text =
      (List.zipWith (· ++ ·) (printed N x u (cs.map Prod.fst)) (cs.map Prod.snd)).flatten := by
  induction cs generalizing u with
  | nil => rfl
  | cons c cs ih =>
    have e : convItems (c :: cs) = .num c.1.spec :: (textItems c.2 ++ convItems cs) := by
      simp [convItems]
    rw [e, fillItems, fillItems_append _ _ _ (textItems_noNum c.2), List.flatMap_cons,
      List.flatMap_append, textItems_text, ih, ← List.append_assoc]
    rfl

theorem length_allParams_le (items : List FmtItem) :
    (allParams items).length ≤ 3 * items.length := by
  induction items with
  | nil => exact Nat.le_refl _
  | cons item items ih =>
    change (_ ++ allParams items).length ≤ _
    rw [List.length_append, List.length_cons]
    cases item with
    | str t => exact Nat.le_trans (Nat.le_of_eq (Nat.zero_add _)) (by omega)
    | chr c => exact Nat.le_trans (Nat.le_of_eq (Nat.zero_add _)) (by omega)
    | num spec =>
      change 3 + _ ≤ _
      omega

/-- There are as many rounds as there are parameters. -/
theorem Params.le_length {dollars : Bool} {items : List FmtItem} (h : Params dollars N items) :
    N ≤ 3 * items.length := by
  have hsub : List.range' 1 N ⊆ allParams items := fun c hc => by
    obtain ⟨i, hi, rfl⟩ := List.mem_range'.mp hc
    exact h.used _ (by omega) (by omega)
  have hlen := ((List.nodup_range' : (List.range' 1 N).Nodup).subperm hsub).length_le
  rw [List.length_range'] at hlen
  exact Nat.le_trans hlen (length_allParams_le items)

theorem map_snd_numberConvs (params : Nat) (cs : List (Directive (Option Param) × List UInt8)) :
    (numberConvs params cs).map Prod.snd = cs.map Prod.snd := by
  induction cs generalizing params with
  | nil => rfl
  | cons c cs ih => exact congrArg (c.2 :: ·) (ih _)

/-- **A call.** The text of the format, and the text of each conversion with its arguments. -/
theorem addFmt_format (F : Format (Option Param)) (h : Params F.named N F.items) :
    addFmt F.text vs = some (F.withTexts
      (printed N (argAt vs) (fun _ => none) ((numberConvs 0 F.convs).map Prod.fst))) := by
  have hlen := h.le_length
  have hfill : fillinSpec F.named (3 * F.items.length + 1) (0 + 1)
      (fillItems 0 (argAt vs) (fun _ => none) F.items) (vs.drop 0) =
      some (fillItems N (argAt vs) (fun _ => none) F.items) :=
    fillinSpec_eq h (Nat.zero_le _) (by omega)
  rw [fillItems_zero, List.drop_zero, Nat.zero_add] at hfill
  unfold addFmt addFmtTexts
  rw [read_format]
  dsimp only
  rw [hfill, Option.map_some, Option.map_some, ← List.flatMap_def, Format.items,
    fillItems_append _ _ _ (textItems_noNum F.head), List.flatMap_append, textItems_text,
    fillItems_convItems, map_snd_numberConvs]
  rfl

/-! ## Arguments one after the other -/

/-- The arguments of a field width or a precision. -/
def Amount.args {δ : Type} : Amount δ α → List α
  | star a => [a]
  | _ => []

/-- The arguments of a conversion. -/
def Directive.args (d : Directive α) : List α := d.width.args ++ d.prec.args ++ [d.main]

/-- The arguments of a format. -/
def Format.args (F : Format α) : List α := F.convs.flatMap fun c => c.1.args

/-- The format that is written when no argument is named. -/
def Format.next (F : Format α) : Format (Option Param) := F.map fun _ => none

/-- The spec of a conversion with the field width and the precision that are given. -/
def Directive.layout (d : Directive Int) : FmtSpec :=
  let spec := (d.map fun _ => 0).spec
  let w := match d.width with
    | .star t => setWidth spec t
    | _ => spec
  match d.prec with
  | .star t => setPrecision w t
  | _ => w

/-- The spec of a conversion with its arguments. -/
def Directive.printed (d : Directive Int) : FmtSpec :=
  setMain (d.map (signedArg 32)).layout none d.main

/-- The text of a conversion with its arguments. -/
def Directive.added (d : Directive Int) : List UInt8 := (FmtItem.num d.printed).text

/-- The text of a format with its arguments. -/
def Format.added (F : Format Int) : List UInt8 := F.withTexts (F.convs.map fun c => c.1.added)

theorem signedArg_rawInt (v : Int) : signedArg 32 (rawInt v) = signedArg 32 v := by
  have h : ((rawInt v : Nat) : Int) = v % 2 ^ 32 :=
    Int.toNat_of_nonneg (Int.emod_nonneg _ (by decide))
  unfold signedArg
  rw [h]
  exact Int.emod_bmod v _

/-- The parameters that are counted for a conversion. -/
theorem number_next (d : Directive α) (params : Nat) :
    ((d.map fun _ => none).number params).2 = params + d.args.length ∧
      ((d.map fun _ => none).number params).1.spec.params.filter (· ≠ 0) =
        List.range' (params + 1) d.args.length := by
  obtain ⟨main, flags, width, prec, intType, conv⟩ := d
  cases width <;> cases prec <;> simp [Directive.map, Amount.map, Directive.number, Amount.number,
    numberArg, Directive.args, Amount.args, Directive.spec, FmtSpec.params,
    List.range'_succ]

/-- The arguments of a conversion are the next ones. -/
theorem number_next_args (d : Directive Int) (params : Nat)
    (hx : ∀ i, ∀ v ∈ d.args[i]?, x (params + 1 + i) = v) :
    ((d.map fun _ => none).number params).1.map x = d := by
  obtain ⟨main, flags, width, prec, intType, conv⟩ := d
  have h0 := hx 0
  have h1 := hx 1
  have h2 := hx 2
  cases width <;> cases prec <;> simp [Directive.map, Amount.map, Directive.number, Amount.number,
    numberArg, Directive.args, Amount.args, Nat.add_assoc] at h0 h1 h2 ⊢ <;> simp [*]

/-- A spec with no parameters left. -/
def FmtSpec.noParams (spec : FmtSpec) : FmtSpec :=
  { spec with fieldWidthParam := 0, precisionParam := 0, mainParam := 0 }

theorem noParams_of_zero {spec : FmtSpec} (h1 : spec.fieldWidthParam = 0)
    (h2 : spec.precisionParam = 0) (h3 : spec.mainParam = 0) : spec.noParams = spec := by
  obtain ⟨⟩ := spec
  dsimp only at h1 h2 h3
  subst h1 h2 h3
  rfl

theorem noParams_setWidth (spec : FmtSpec) (t : Int) :
    (setWidth spec t).noParams = setWidth spec.noParams t := by
  unfold setWidth
  split <;> rfl

theorem noParams_setPrecision (spec : FmtSpec) (t : Int) :
    (setPrecision spec t).noParams = setPrecision spec.noParams t := by
  unfold setPrecision
  split <;> rfl

theorem noParams_setMain (spec : FmtSpec) (t : Option Nat) (v : Int) :
    (setMain spec t v).noParams = setMain spec.noParams t v := by
  cases t <;> rfl

theorem noParams_spec (n : Directive Nat) (f : Nat → Int) :
    n.spec.noParams = ((n.map f).map fun _ => 0).spec := by
  obtain ⟨main, flags, width, prec, intType, conv⟩ := n
  cases width <;> cases prec <;> rfl

theorem noParams_fillTo (i j k : Nat) (spec : FmtSpec) : (fillTo i j k u x spec).noParams =
    mainUpTo k u x spec (precUpTo j u x spec (widthUpTo i u x spec spec.noParams)) := by
  unfold fillTo mainUpTo precUpTo widthUpTo
  split <;> split <;> split <;>
    simp only [noParams_setMain, noParams_setPrecision, noParams_setWidth]

/-- The parameters of a spec are there. -/
theorem params_le (n : Directive Nat) (h : ∀ p ∈ n.args, 1 ≤ p ∧ p ≤ N) :
    n.spec.fieldWidthParam ≤ N ∧ n.spec.precisionParam ≤ N ∧ 1 ≤ n.main ∧ n.main ≤ N := by
  obtain ⟨main, flags, width, prec, intType, conv⟩ := n
  simp only [Directive.args, List.mem_append, List.mem_singleton] at h
  refine ⟨?_, ?_, h main (.inr rfl)⟩
  · cases width with
    | star p => exact (h p (.inl (.inl (List.mem_singleton.mpr rfl)))).2
    | _ => exact Nat.zero_le _
  · cases prec with
    | star p => exact (h p (.inl (.inr (List.mem_singleton.mpr rfl)))).2
    | _ => exact Nat.zero_le _

theorem widthUpTo_eq (n : Directive Nat) (h : ∀ p ∈ n.args, 1 ≤ p ∧ p ≤ N) (s : FmtSpec) :
    widthUpTo N u x n.spec s = match n.width with
      | .star p => setWidth s (intTaken u x p)
      | _ => s := by
  obtain ⟨main, flags, width, prec, intType, conv⟩ := n
  simp only [Directive.args, List.mem_append, List.mem_singleton] at h
  unfold widthUpTo
  cases width with
  | star p => exact if_pos (h p (.inl (.inl (List.mem_singleton.mpr rfl))))
  | _ => exact if_neg fun hc => Nat.not_succ_le_zero 0 hc.1

theorem precUpTo_eq (n : Directive Nat) (h : ∀ p ∈ n.args, 1 ≤ p ∧ p ≤ N) (s : FmtSpec) :
    precUpTo N u x n.spec s = match n.prec with
      | .star p => setPrecision s (intTaken u x p)
      | _ => s := by
  obtain ⟨main, flags, width, prec, intType, conv⟩ := n
  simp only [Directive.args, List.mem_append, List.mem_singleton] at h
  unfold precUpTo
  cases prec with
  | star p => exact if_pos (h p (.inl (.inr (List.mem_singleton.mpr rfl))))
  | _ => exact if_neg fun hc => Nat.not_succ_le_zero 0 hc.1

/-- The field width and the precision of a spec with all its arguments. -/
theorem layout_eq (n : Directive Nat) (h : ∀ p ∈ n.args, 1 ≤ p ∧ p ≤ N) :
    precUpTo N u x n.spec (widthUpTo N u x n.spec n.spec.noParams) =
      (n.map (intTaken u x)).layout := by
  rw [noParams_spec n (intTaken u x), widthUpTo_eq n h, precUpTo_eq n h]
  obtain ⟨main, flags, width, prec, intType, conv⟩ := n
  unfold Directive.layout
  cases width <;> cases prec <;> rfl

/-- A spec with all its arguments. -/
theorem fillTo_eq (n : Directive Nat) (h : ∀ p ∈ n.args, 1 ≤ p ∧ p ≤ N) :
    fillTo N N N u x n.spec =
      setMain (n.map (intTaken u x)).layout (mainTaken u x n.spec) (x n.main) := by
  obtain ⟨hfw, hpp, hmp⟩ := fillTo_fields N N N u x n.spec
  obtain ⟨h1, h2, h3⟩ := params_le n h
  have hz : ∀ p, p ≤ N → paramLeft N p = 0 := fun p hp => if_pos hp
  rw [← noParams_of_zero (hfw.trans (hz _ h1)) (hpp.trans (hz _ h2)) (hmp.trans (hz _ h3.2)),
    noParams_fillTo, layout_eq n h]
  exact if_pos h3

/-- The field width or the precision of a conversion, when its argument has not been taken. -/
theorem intTaken_fresh {p : Nat} (h : u p = none) : intTaken u x p = signedArg 32 (x p) := by
  unfold intTaken
  rw [h]
  exact signedArg_rawInt _

theorem Directive.map_map {γ : Type} (d : Directive α) (f : α → β) (g : β → γ) :
    (d.map f).map g = d.map fun a => g (f a) := by
  obtain ⟨main, flags, width, prec, intType, conv⟩ := d
  cases width <;> cases prec <;> rfl

theorem layout_congr (n : Directive Nat) {f g : Nat → Int}
    (h : ∀ p ∈ n.width.args ++ n.prec.args, f p = g p) : (n.map f).layout = (n.map g).layout := by
  obtain ⟨main, flags, width, prec, intType, conv⟩ := n
  unfold Directive.layout
  cases width <;> cases prec <;> simp [Directive.map, Amount.map, Amount.args] at h ⊢ <;> simp [*]

/-- Whether a conversion names the argument that is printed also in its layout. -/
theorem main_star_iff (n : Directive Nat) (h : 1 ≤ n.main) :
    (n.spec.mainParam = n.spec.fieldWidthParam ∨ n.spec.mainParam = n.spec.precisionParam) ↔
      n.main ∈ n.width.args ++ n.prec.args := by
  obtain ⟨main, flags, width, prec, intType, conv⟩ := n
  have h0 : main ≠ 0 := Nat.pos_iff_ne_zero.mp h
  rw [List.mem_append]
  refine or_congr ?_ ?_
  · change main = _ ↔ main ∈ width.args
    cases width with
    | star p => exact List.mem_singleton.symm
    | _ => exact iff_of_false h0 List.not_mem_nil
  · change main = _ ↔ main ∈ prec.args
    cases prec with
    | star p => exact List.mem_singleton.symm
    | _ => exact iff_of_false h0 List.not_mem_nil

/-- A spec whose arguments have not been taken before, each its own, takes them all. -/
theorem fillTo_fresh (n : Directive Nat) (h : ∀ p ∈ n.args, 1 ≤ p ∧ p ≤ N)
    (hu : ∀ p ∈ n.args, u p = none) (hmain : n.main ∉ n.width.args ++ n.prec.args) :
    fillTo N N N u x n.spec = (n.map x).printed := by
  have hm : n.main ∈ n.args := by simp [Directive.args]
  have ht : mainTaken u x n.spec = none := by
    unfold mainTaken
    rw [if_neg (fun hc => hmain ((main_star_iff n (h _ hm).1).mp hc)),
      show n.spec.mainParam = n.main from rfl, hu _ hm]
    rfl
  rw [fillTo_eq n h, ht]
  refine congrArg (setMain · none (x n.main)) ?_
  rw [Directive.map_map]
  exact layout_congr n fun p hp => intTaken_fresh (hu p (List.mem_append_left _ hp))

/-- What a conversion makes of arguments that it does not name. -/
theorem takenBy_other {n : Directive Nat} {c : Nat} (h : c ∉ n.spec.params) :
    takenBy u x (.num n.spec) c = u c := by
  simp only [FmtSpec.params, List.mem_cons, List.not_mem_nil, or_false, not_or] at h
  change (u c).or (n.spec.takes c (x c)) = u c
  unfold FmtSpec.takes
  rw [if_neg (by simp [h]), if_neg (by simp [h]), Option.or_none]

/-- The arguments of a conversion are counted from the next one, the one that is printed last. -/
theorem number_next_params (d : Directive α) (params : Nat) :
    ((d.map fun _ => none).number params).1.args = List.range' (params + 1) d.args.length ∧
      ((d.map fun _ => none).number params).1.main ∉
        ((d.map fun _ => none).number params).1.width.args ++
          ((d.map fun _ => none).number params).1.prec.args := by
  obtain ⟨main, flags, width, prec, intType, conv⟩ := d
  cases width <;> cases prec <;> simp [Directive.map, Amount.map, Directive.number, Amount.number,
    numberArg, Directive.args, Amount.args, List.range'_succ, Nat.add_assoc]

/-- Conversions take the next arguments. -/
theorem printed_next (cs : List (Directive Int × List UInt8)) (params : Nat)
    (hN : params + (cs.flatMap fun c => c.1.args).length ≤ N)
    (hu : ∀ c, params < c → u c = none)
    (hx : ∀ i, ∀ v ∈ (cs.flatMap fun c => c.1.args)[i]?, x (params + 1 + i) = v) :
    printed N x u ((numberConvs params (cs.map fun c => (c.1.map fun _ => none, c.2))).map
      Prod.fst) = cs.map fun c => c.1.added := by
  induction cs generalizing params u with
  | nil => rfl
  | cons c cs ih =>
    obtain ⟨hnext, hfilter⟩ := number_next c.1 params
    obtain ⟨hargs, hmain⟩ := number_next_params c.1 params
    rw [List.flatMap_cons] at hN hx
    rw [List.length_append] at hN
    have hd : ((c.1.map fun _ => none).number params).1.map x = c.1 :=
      number_next_args c.1 params fun i v hv => by
        refine hx i v ?_
        have hlt := (List.getElem?_eq_some_iff.mp hv).1
        rw [List.getElem?_append_left hlt]
        exact hv
    have hbound : ∀ p ∈ ((c.1.map fun _ => none).number params).1.args,
        params < p ∧ p ≤ params + c.1.args.length := fun p hp => by
      rw [hargs] at hp
      obtain ⟨i, hi, rfl⟩ := List.mem_range'.mp hp
      omega
    have hfill := fillTo_fresh (N := N) (u := u) (x := x) _
      (fun p hp => ⟨by have := hbound p hp; omega, by have := hbound p hp; omega⟩)
      (fun p hp => hu p (hbound p hp).1) hmain
    rw [hd] at hfill
    have hrest := ih (u := takenBy u x (.num ((c.1.map fun _ => none).number params).1.spec))
      ((c.1.map fun _ => none).number params).2 (by omega)
      (fun p hp => by
        rw [takenBy_other]
        · exact hu p (by omega)
        · intro hin
          have : p ∈ List.range' (params + 1) c.1.args.length := by
            rw [← hfilter]
            exact List.mem_filter.mpr ⟨hin, decide_eq_true (by omega)⟩
          obtain ⟨i, hi, rfl⟩ := List.mem_range'.mp this
          omega)
      (fun i v hv => by
        rw [hnext, show params + c.1.args.length + 1 + i = params + 1 + (c.1.args.length + i) by
          omega]
        refine hx _ v ?_
        rw [List.getElem?_append_right (Nat.le_add_right _ _), Nat.add_sub_cancel_left]
        exact hv)
    change (FmtItem.num _).text :: printed N x _ _ = _
    rw [hfill]
    exact congrArg (c.1.added :: ·) hrest

theorem allParams_append (items items' : List FmtItem) :
    allParams (items ++ items') = allParams items ++ allParams items' := List.flatMap_append

theorem allParams_text {ts : List FmtItem} (hts : ∀ spec, .num spec ∉ ts) : allParams ts = [] := by
  refine List.flatMap_eq_nil_iff.mpr fun item hitem => ?_
  cases item with
  | num spec => exact absurd hitem (hts spec)
  | _ => rfl

/-- The parameters of a format are those of its conversions. -/
theorem allParams_convItems (cs : List (Directive Nat × List UInt8)) :
    allParams (convItems cs) = cs.flatMap fun c => c.1.spec.params := by
  induction cs with
  | nil => rfl
  | cons c cs ih =>
    have e : convItems (c :: cs) = .num c.1.spec :: (textItems c.2 ++ convItems cs) := by
      simp [convItems]
    rw [e, List.flatMap_cons, ← ih]
    change _ ++ allParams _ = _
    rw [allParams_append, allParams_text (textItems_noNum c.2), List.nil_append]

theorem allParams_items (F : Format (Option Param)) :
    allParams F.items = (numberConvs 0 F.convs).flatMap fun c => c.1.spec.params := by
  rw [Format.items, allParams_append, allParams_text (textItems_noNum F.head), List.nil_append,
    allParams_convItems]

/-- The parameters of conversions are counted. -/
theorem params_next (cs : List (Directive Int × List UInt8)) (params : Nat) :
    ((numberConvs params (cs.map fun c => (c.1.map fun _ => none, c.2))).flatMap
      fun c => c.1.spec.params).filter (· ≠ 0) =
      List.range' (params + 1) (cs.flatMap fun c => c.1.args).length := by
  induction cs generalizing params with
  | nil => rfl
  | cons c cs ih =>
    obtain ⟨hnext, hfilter⟩ := number_next c.1 params
    have h := ih ((c.1.map fun _ => none).number params).2
    rw [List.flatMap_cons, List.length_append, List.map_cons, numberConvs, List.flatMap_cons,
      List.filter_append, hfilter, h, hnext, ← List.range'_append,
      show params + c.1.args.length + 1 = params + 1 + 1 * c.1.args.length by omega]

/-- Every argument has its parameter. -/
theorem params_of_next (F : Format Int) : Params F.next.named F.args.length F.next.items := by
  have h := params_next F.convs 0
  have hitems : (allParams F.next.items).filter (· ≠ 0) = List.range' 1 F.args.length := by
    rw [allParams_items]
    exact h
  have hmem : ∀ p, p ∈ allParams F.next.items → p ≠ 0 → p ∈ List.range' 1 F.args.length :=
    fun p hp h0 => by
      rw [← hitems]
      exact List.mem_filter.mpr ⟨hp, decide_eq_true h0⟩
  refine ⟨fun p hp => ?_, fun c h1 h2 => ?_, fun _ c hc => ?_⟩
  · by_cases h0 : p = 0
    · omega
    · obtain ⟨i, hi, rfl⟩ := List.mem_range'.mp (hmem p hp h0)
      omega
  · have : c ∈ List.range' 1 F.args.length := List.mem_range'.mpr ⟨c - 1, by omega, by omega⟩
    rw [← hitems] at this
    exact (List.mem_filter.mp this).1
  · rw [← List.count_filter (p := fun p => decide (p ≠ 0)) (decide_eq_true (by omega)), hitems]
    exact List.nodup_iff_count.mp List.nodup_range' c

/-- **Arguments one after the other.** -/
theorem addFmt_next (F : Format Int) : addFmt F.next.text F.args = some F.added := by
  have hp := printed_next (N := F.args.length) (u := fun _ => none) (x := argAt F.args) F.convs 0
    (Nat.le_of_eq (Nat.zero_add _)) (fun _ _ => rfl) (fun i v hv => by
      unfold argAt
      rw [show 0 + 1 + i - 1 = i by omega, List.getD_eq_getElem?_getD,
        show F.args[i]? = some v from hv]
      rfl)
  rw [addFmt_format F.next (params_of_next F)]
  have hsnd : F.next.convs.map Prod.snd = F.convs.map Prod.snd := by
    change (F.convs.map _).map _ = _
    rw [List.map_map]
    rfl
  refine congrArg some ?_
  unfold Format.added Format.withTexts
  change printed _ _ _ ((numberConvs 0 F.next.convs).map Prod.fst) = _ at hp
  rw [hsnd, hp]
  rfl

end Vstr.Fmt
