import Unagi.Ir.Bridge
import Unagi.Lib.Except

/-! # What an accepted call and an accepted function look like -/

namespace Unagi.Ir
open Emit (Repr)

theorem LowerM.bind_ok {α β : Type} {m : LowerM α} {f : α → LowerM β} {s s' : List String} {b : β}
    (h : (m >>= f) s = .ok (b, s')) : ∃ a s₁, m s = .ok (a, s₁) ∧ f a s₁ = .ok (b, s') := by
  simp only [bind,StateT.bind] at h
  obtain ⟨⟨a,s₁⟩,ha,hb⟩ := (Except.bind_isOk_iff _ _ _).mp h
  exact ⟨a,s₁,ha,hb⟩
theorem LowerM.pure_ok {α : Type} {a b : α} {s s' : List String}
    (h : (pure a : LowerM α) s = .ok (b, s')) : b = a ∧ s' = s := by
  cases h
  exact ⟨rfl,rfl⟩
theorem LowerM.refuse_ne {α : Type} {msg : String} {a : α} {s s' : List String} :
    (refuse msg : LowerM α) s ≠ .ok (a, s') := by
  intro h
  cases h

section Inversion
variable {ctx : LowerCtx} {sc : Scope} {s s' : List String} {out : Emit.Expr × Repr}

theorem plainArgs_ok {f : String} {args : List Frontend.Arg} (h : plainArgs f args s = .ok ((), s')) :
    s' = s ∧ ∀ a ∈ args, a.name = "" ∧ a.star = 0 := by
  induction args with
  | nil => exact ⟨(LowerM.pure_ok h).2,by simp⟩
  | cons a as ih =>
    simp only [plainArgs] at h
    split at h
    · exact absurd h LowerM.refuse_ne
    · rename_i hname
      split at h
      · exact absurd h LowerM.refuse_ne
      · rename_i hstar
        obtain ⟨rfl,has⟩ := ih h
        refine ⟨rfl,?_⟩
        rintro b (_ | ⟨_,hb⟩)
        · exact ⟨not_not.mp hname,not_not.mp hstar⟩
        · exact has b hb

theorem lowerExpr_call_ok {fn : Frontend.Expr} {args : List Frontend.Arg}
    (h : lowerExpr ctx sc (.call fn args) s = .ok (out, s')) :
    ∃ f callee vs, fn = .name f ∧ (ctx.resolve.bind fun g => g f) = some callee ∧
      (∀ a ∈ args, a.name = "" ∧ a.star = 0) ∧ args.length = callee.params.length ∧
      lowerArgs ctx sc f 0 callee.params args s = .ok (vs, s') ∧
      out = (.call callee.goName vs callee.ret, callee.ret) := by
  cases fn with
  | name f =>
    cases hres : ctx.resolve with
    | none => simp only [lowerExpr,hres] at h; exact absurd h LowerM.refuse_ne
    | some resolve =>
      cases hf : resolve f with
      | none => simp only [lowerExpr,hres,hf] at h; exact absurd h LowerM.refuse_ne
      | some callee =>
        simp only [lowerExpr,hres,hf] at h
        obtain ⟨u,s₁,hplain,hrest⟩ := LowerM.bind_ok h
        obtain ⟨rfl,hargs⟩ := plainArgs_ok hplain
        split at hrest
        · exact absurd hrest LowerM.refuse_ne
        · rename_i hlen
          obtain ⟨vs,s₂,hvs,hpure⟩ := LowerM.bind_ok hrest
          obtain ⟨rfl,rfl⟩ := LowerM.pure_ok hpure
          exact ⟨f,callee,vs,rfl,by simp [hf],hargs,not_not.mp hlen,hvs,rfl⟩
  | _ => exact absurd h LowerM.refuse_ne

end Inversion

theorem lowerFuncGen_ok {fn : Frontend.FuncDef} {resolve : Option (String → Option StaticCallee)}
    {globals shapes : Option (String → Option Repr)} {gens : Option (String → Option StaticGenerator)}
    {f : Emit.Func} (h : lowerFuncGen fn resolve globals shapes gens = .ok f) :
    ∃ params sc out guards ret, lowerParams shapes [] fn.params = .ok (params, sc) ∧
      lowerBodyFrom { reads := loadedNames fn.body, inLoop := false, resolve, globals, shapes, gens } sc none
        false fn.body [] = .ok (out, guards) ∧ out.ret = some ret ∧ out.terminates = true ∧
      f = { name := fn.name, params, ret, body := out.stmts, deoptHandler := "",
            bindingGuards := guards.map fun g => ⟨shadowVer g,1⟩ } := by
  unfold lowerFuncGen at h
  split at h
  · cases h
  · split at h
    · cases h
    · simp only [Except.bind_isOk_iff,Prod.exists] at h
      obtain ⟨params,sc,hparams,out,guards,hbody,h⟩ := h
      cases hret : out.ret with
      | none => simp only [hret] at h; cases h
      | some ret =>
        simp only [hret] at h
        split at h
        · cases h
        · rename_i hterm
          simp only [Except.bind_isOk_iff] at h
          obtain ⟨u,-,h⟩ := h
          cases h
          exact ⟨params,sc,out,guards,ret,hparams,hbody,hret,by simpa using hterm,rfl⟩

end Unagi.Ir
