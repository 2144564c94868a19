import Vstr.Model.Cmp
import Vstr.Model.Wrap

/-!
# Comparing versions

`vstr_cmp_vers` and `vstr_cmp_vers_buf` of `vstr_cmp.c`, where runs of digits count as numbers
and those that begin with a zero as fractions. The comparison is a state machine that is
resumed at every stretch of bytes.
-/

namespace Vstr

open Memory

variable {n : Nat}

/-- `VSTR__IS_ASCII_DIGIT`. -/
def isAsciiDigit (c : UInt8) : Bool := 0x30 ≤ c ∧ c ≤ 0x39

/-- `VSTR__CMP_NORM` and so on. -/
inductive VersState where
  /-- Outside of numbers. -/
  | norm
  /-- In a number. -/
  | numb
  /-- In a fraction. -/
  | frac
  /-- The strings differ; the longer number is the greater one. -/
  | lenPos
  /-- The strings differ; the longer fraction is the smaller one. -/
  | lenNeg
  /-- The answer is known. -/
  | done
  deriving DecidableEq, Repr

/-- The value of the macro. -/
def VersState.val : VersState → Int
  | norm => 0
  | numb => 1
  | frac => 2
  | lenPos => 4
  | lenNeg => 8
  | done => 9

/-- Less than `VSTR__CMP_NON_MAIN_LOOP`. -/
def VersState.main (state : VersState) : Bool := state.val < 3

/-- The `switch` of the main loop, on a byte of both strings. -/
def VersState.next : VersState → UInt8 → VersState
  | norm, c =>
    let state := if isAsciiDigit c then numb else norm
    if c = 0x30 then frac else state
  | frac, c =>
    let state := if isAsciiDigit c ∧ c ≠ 0x30 then numb else frac
    if ¬ isAsciiDigit c then norm else state
  | numb, c => if ¬ isAsciiDigit c then norm else numb
  | state, _ => state

/-- `state << 2`, from where on the longer run of digits decides; outside of numbers the
answer is known. -/
def VersState.newState : VersState → VersState
  | norm => done
  | numb => lenPos
  | frac => lenNeg
  | state => state

/-- The `switch` behind the main loop, on bytes that differ, and the state from there on. -/
def VersState.differ (state : VersState) (c₁ c₂ : UInt8) : VersState :=
  VersState.newState <|
    match state with
    | norm =>
      if isAsciiDigit c₁ ∧ c₁ ≠ 0x30 ∧ isAsciiDigit c₂ ∧ c₂ ≠ 0x30 then numb else norm
    | frac => if ¬ isAsciiDigit c₁ ∧ ¬ isAsciiDigit c₂ then norm else frac
    | numb => if ¬ isAsciiDigit c₁ ∧ ¬ isAsciiDigit c₂ then norm else numb
    | state => state

/-- The main loop of `vstr__cmp_vers`: the state, `diff` and what is left of both strings. -/
def cmpVersMain : VersState → List UInt8 → List UInt8 →
    VersState × Int × List UInt8 × List UInt8
  | state, c₁ :: str₁, c₂ :: str₂ =>
    if state.main then
      let diff := plainChar c₁ - plainChar c₂
      if diff = 0 then cmpVersMain (state.next c₁) str₁ str₂
      else (state, diff, c₁ :: str₁, c₂ :: str₂)
    else (state, 0, c₁ :: str₁, c₂ :: str₂)
  | state, str₁, str₂ => (state, 0, str₁, str₂)

/-- The end of `vstr__cmp_vers`, where the longer run of digits decides. -/
def cmpVersLen (state : VersState) (difference : Int) :
    List UInt8 → List UInt8 → VersState × Int
  | c₁ :: str₁, c₂ :: str₂ =>
    if isAsciiDigit c₁ ∧ isAsciiDigit c₂ then cmpVersLen state difference str₁ str₂
    else
      let difference := if isAsciiDigit c₁ then -state.val + 4 + 1 else difference
      let difference := if isAsciiDigit c₂ then state.val - 4 - 1 else difference
      (.done, difference)
  | _, _ => (state, difference)

/-- `vstr__cmp_vers`: the state it returns, and `*difference`. -/
def cmpVersBytes (str₁ str₂ : List UInt8) (state : VersState) (difference : Int) :
    VersState × Int :=
  match cmpVersMain state str₁ str₂ with
  | (state, diff, str₁, str₂) =>
    if diff ≠ 0 then
      match state.differ (str₁.headD 0) (str₂.headD 0) with
      | .done => (.done, diff)
      | state => cmpVersLen state diff str₁ str₂
    else if ¬ state.main then cmpVersLen state difference str₁ str₂
    else (state, difference)

/-- `scan_1_longer`. -/
def scan1Longer (state : VersState) : Int := if state = .frac ∨ state = .lenNeg then -1 else 1

/-- `scan_2_longer`. -/
def scan2Longer (state : VersState) : Int := if state = .frac ∨ state = .lenNeg then 1 else -1

/-- The loop of `vstr_cmp_vers`; `fuel` bounds the number of stretches. -/
def cmpVersLoop (h : Heap) : Nat → VersState → Int → List Iter → List Iter → Int
  | fuel + 1, state, ret, it₁ :: its₁, it₂ :: its₂ =>
    let tmp := min it₁.len it₂.len
    let next := fun (state : VersState) (ret : Int) =>
      match iterDrop tmp it₁ its₁, iterDrop tmp it₂ its₂ with
      | [], _ => if it₂.len - tmp + it₂.remaining ≠ 0 then scan2Longer state else ret
      | _ :: _, [] => scan1Longer state
      | its₁, its₂ => cmpVersLoop h fuel state ret its₁ its₂
    match it₁.ptr h, it₂.ptr h with
    | some p₁, some p₂ =>
      match cmpVersBytes (read h.mem p₁ tmp) (read h.mem p₂ tmp) state ret with
      | (.done, ret) => ret
      | (state, ret) => next state ret
    | some _, none => scan1Longer state
    | none, some _ => scan2Longer state
    | none, none => next state ret
  | _, _, ret, _, _ => ret

/-- `vstr_cmp_vers` on the strings `i` and `j`. -/
def cmpVers (i : Fin n) (pos₁ len₁ : Nat) (j : Fin n) (pos₂ len₂ : Nat) : StateM (World n) Int :=
  cmpDoubleIter 0 (-1) 1 (fun h its₁ its₂ =>
    cmpVersLoop h (its₁.length + its₂.length) .norm 0 its₁ its₂) i pos₁ len₁ j pos₂ len₂

/-- The loop of `vstr_cmp_vers_buf`. -/
def versBufLoop (h : Heap) : VersState → Int → Buf → List Iter → Int
  | state, _, _, [] => scan2Longer state
  | state, ret, buf, it :: its =>
    let here := min it.len buf.len
    let next := fun (state : VersState) (ret : Int) =>
      if buf.len ≤ here then
        (if it.len > buf.len ∨ it.remaining ≠ 0 then scan1Longer state else ret)
      else versBufLoop h state ret (buf.drop here) its
    match it.ptr h, buf with
    | none, .bytes _ => scan2Longer state
    | some _, .null _ => scan1Longer state
    | none, .null _ => next state ret
    | some p, .bytes bs =>
      match cmpVersBytes (read h.mem p here) (bs.take here) state ret with
      | (.done, ret) => ret
      | (state, ret) => next state ret

/-- `vstr_cmp_vers_buf`. -/
def cmpVersBuf (pos len : Nat) (buf : Buf) : StateM St Int :=
  cmpIter 0 (-1) 1 (fun h buf its => versBufLoop h .norm 0 buf its) pos len buf

end Vstr
