import Unagi.Emit.Eval
import Unagi.Ir.Bridge
import Unagi.Python.Arith

/-! # Folding keeps the value

Each operator on two words follows Python's on the integers of the words, or leaves the static tier,
and the bridge folds two constants to what the operator gives. -/

namespace Unagi.Ir
open Emit (Op Repr Halt intBin checked)
open Go (Value)
open Frontend (BinKind)
open Unagi.Runtime Int64

inductive Tracks (R : Python.Value → Value → Prop) :
    Except Python.Stop Python.Value → Except Halt Value → Prop
  | ok {p : Python.Value} {v : Value} : R p v → Tracks R (.ok p) (.ok v)
  | raise {x : Python.Exc} : Tracks R (.error (.raise x)) (.error (.raise x))
  | deopt {r : Except Python.Stop Python.Value} : Tracks R r (.error .deopt)

def IntRel (p : Python.Value) (v : Value) : Prop := ∃ x : Int64, v = .int x ∧ p = .int x.toInt

private theorem tracks_checked {r : Int64 × Bool} {z : Int} (h : Checks r z) :
    Tracks IntRel (.ok (.int z)) (checked r) := by
  rcases h with ⟨-,hf,hv⟩ | ⟨-,hf⟩
  · rw [checked,hf,← hv]
    exact .ok ⟨_,rfl,rfl⟩
  · rw [checked,hf]
    exact .deopt

theorem intBin_tracks {k : BinKind} {op : Op} (hk : binOp k = some op) (hdiv : op ≠ .div)
    (x y : Int64) : Tracks IntRel (Python.intOp k x.toInt y.toInt) (intBin op x y) := by
  cases k <;> simp only [binOp,Option.some.injEq,reduceCtorEq] at hk <;> subst hk <;>
    simp only [Python.intOp,intBin]
  case add => exact tracks_checked (addInt64_checks x y)
  case sub => exact tracks_checked (subInt64_checks x y)
  case mul => exact tracks_checked (mulInt64_checks x y)
  case div => exact absurd rfl hdiv
  case floorDiv =>
    by_cases hy : y = 0
    · subst hy
      exact .raise
    · have hy' : y.toInt ≠ 0 := fun h => hy (toInt_eq_zero_iff.mp h)
      obtain ⟨r,hr,hc⟩ := floorDivInt64_checks (a := x) hy
      rw [if_neg hy,if_neg hy',hr]
      exact tracks_checked hc
  case mod =>
    by_cases hy : y = 0
    · subst hy
      exact .raise
    · have hy' : y.toInt ≠ 0 := fun h => hy (toInt_eq_zero_iff.mp h)
      obtain ⟨v,hv,he⟩ := floorModInt64_exact (a := x) hy
      rw [if_neg hy,if_neg hy',hv]
      exact .ok ⟨v,rfl,by rw [he]⟩
  case pow =>
    generalize hp : powInt64 x y = r
    obtain ⟨v,o⟩ := r
    cases o with
    | true => exact .deopt
    | false =>
      obtain ⟨hy,hv⟩ := powInt64_exact hp
      rw [if_pos hy]
      exact .ok ⟨v,rfl,by rw [hv]⟩
  case bitOr => exact .ok ⟨_,rfl,by rw [toInt_or]⟩
  case bitXor => exact .ok ⟨_,rfl,by rw [toInt_xor]⟩
  case bitAnd => exact .ok ⟨_,rfl,by rw [toInt_and]⟩
  case lShift =>
    by_cases hy : y < 0
    · have hy' : y.toInt < 0 := by simpa [lt_iff_toInt_lt] using hy
      rw [if_pos hy,if_pos hy']
      exact .raise
    · have hy' : ¬y.toInt < 0 := by simpa [lt_iff_toInt_lt] using hy
      rw [if_neg hy,if_neg hy']
      exact tracks_checked (lShiftInt64_checks (by omega))
  case rShift =>
    by_cases hy : y < 0
    · have hy' : y.toInt < 0 := by simpa [lt_iff_toInt_lt] using hy
      rw [if_pos hy,if_pos hy']
      exact .raise
    · have hy' : ¬y.toInt < 0 := by simpa [lt_iff_toInt_lt] using hy
      rw [if_neg hy,if_neg hy']
      exact .ok ⟨_,rfl,by rw [rShiftInt64_exact (by omega)]⟩

theorem foldIntOp_intBin {op : Op} {x y v : Int64} (h : foldIntOp op x y = some v) :
    op ≠ .div ∧ intBin op x y = .ok (.int v) := by
  have hchecked : ∀ r : Int64 × Bool, (if r.2 then none else some r.1) = some v →
      checked r = .ok (.int v) := by
    intro r hr
    split at hr
    · cases hr
    · cases hr
      simp_all [checked]
  have hop : op ≠ .div := by
    rintro rfl
    cases h
  refine ⟨hop,?_⟩
  cases op <;> simp only [foldIntOp] at h <;> simp only [intBin]
  case div => cases h
  case floorDiv =>
    split at h
    · cases h
    · rename_i hy
      obtain ⟨r,hr,-⟩ := floorDivInt64_checks (a := x) hy
      rw [hr] at h ⊢
      rw [if_neg hy]
      exact hchecked r h
  case mod =>
    split at h
    · cases h
    · rename_i hy
      rw [if_neg hy,h]
      rfl
  case lShift | rShift =>
    split at h
    · cases h
    · rename_i hy
      rw [if_neg hy]
      first | exact hchecked _ h | (cases h; rfl)
  all_goals first | exact hchecked _ h | (cases h; rfl)

theorem binNode_scalar {op : Op} {l r : Emit.Expr} {lr rr res : Repr} :
    (binNode op l lr r rr res).2.scalar = res.scalar := by
  unfold binNode
  split
  · rfl
  · split
    · rename_i p hp
      simp only [simplifyIntIdentity] at hp
      split_ifs at hp with h1 h2 h3 <;> cases hp
      · exact h2.1.trans (not_not.mp h1).symm
      · exact h3.1.trans (not_not.mp h1).symm
    · rfl

end Unagi.Ir
