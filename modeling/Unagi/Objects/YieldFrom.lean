import Unagi.Objects.Generator

/-! # Delegation as PEP 380 defines it

The expansion of yield from calls the methods of the sub-iterator. `YieldFrom` hands a
sub-generator every signal as it comes and only iterates anything else. -/

namespace Unagi.Objects

variable {S T V O I : Type}

def GenEvent.result : GenEvent V → Except (Exc V) (Option V)
  | .yielded v => .ok v
  | .returned r => .error (.stopIteration r)
  | .failed e => .error e
def GenEvent.closeResult : GenEvent V → Except (Exc V) Unit
  | .yielded _ => .error ignoredExit
  | .returned _ => .ok ()
  | .failed .generatorExit => .ok ()
  | .failed e => .error e

namespace Generator

/-- `send`; `next` sends None. An exhausted generator raises a bare StopIteration. -/
def pySend (body : Body S V) (g : Generator S V) (v : Option V) :
    Option (Except (Exc V) (Option V) × Generator S V × List (Signal V)) :=
  if g.done then some (.error (.stopIteration none), g, [])
  else if g.running then some (.error alreadyExecuting, g, [])
  else if g.started = false ∧ v ≠ none then some (.error sendToFresh, g, [])
  else (g.resume body (.value v)).map fun (ev, g, received) => (ev.result, g, received)

def pyThrow (body : Body S V) (g : Generator S V) (e : Exc V) :
    Option (Except (Exc V) (Option V) × Generator S V × List (Signal V)) :=
  if g.done then some (.error e, g, [])
  else if g.running then some (.error alreadyExecuting, g, [])
  else if g.started = false then some (.error e, { g with done := true }, [])
  else (g.resume body (.throw e)).map fun (ev, g, received) => (ev.result, g, received)
def pyClose (body : Body S V) (g : Generator S V) :
    Option (Except (Exc V) Unit × Generator S V × List (Signal V)) :=
  if g.done = true ∨ g.started = false then some (.ok (), { g with done := true }, [])
  else if g.running then some (.error alreadyExecuting, g, [])
  else (g.resume body (.throw .generatorExit)).map fun (ev, g, received) =>
    (ev.closeResult, g, received)

end Generator

def exitOutcome : Except (Exc V) Unit → Outcome V
  | .ok _ => .raise .generatorExit
  | .error e => .raise e
def noAttribute (name : String) : Exc V := .raised "AttributeError" name

def pep380 (body : Body S V) (user : T → UserIterator T V) : Delegation S T V where
  start
    | .gen g => (g.pySend body none).map fun (r, g, received) =>
        (callOutcome r, .gen g, received.map .resumed)
    | .user t => let (r, t) := (user t).next t; some (callOutcome r, .user t, [.next])
  resume
    | .gen g, .throw .generatorExit => (g.pyClose body).map fun (r, g, received) =>
        (exitOutcome r, .gen g, received.map .resumed)
    | .gen g, .throw e => (g.pyThrow body e).map fun (r, g, received) =>
        (callOutcome r, .gen g, received.map .resumed)
    | .gen g, .value v => (g.pySend body v).map fun (r, g, received) =>
        (callOutcome r, .gen g, received.map .resumed)
    | .user t, .throw .generatorExit =>
      match (user t).close with
      | none => some (.raise .generatorExit, .user t, [])
      | some close => let (r, t) := close t; some (exitOutcome r, .user t, [.close])
    | .user t, .throw e =>
      match (user t).throw with
      | none => some (.raise e, .user t, [])
      | some throw => let (r, t) := throw t e; some (callOutcome r, .user t, [.throw e])
    | .user t, .value none => let (r, t) := (user t).next t; some (callOutcome r, .user t, [.next])
    | .user t, .value (some v) =>
      match (user t).send with
      | none => some (.raise (noAttribute "send"), .user t, [])
      | some send => let (r, t) := send t (some v); some (callOutcome r, .user t, [.send (some v)])

/-- One call on a generator in the language. -/
def Generator.pyCall (body : Body S V) (g : Generator S V) :
    Call V → Option (Observed V × Generator S V)
  | .next => (g.pySend body none).map fun (r, g, _) => (observe r, g)
  | .send v => (g.pySend body v).map fun (r, g, _) => (observe r, g)
  | .throw e => (g.pyThrow body e).map fun (r, g, _) => (observe r, g)
  | .close => (g.pyClose body).map fun (r, g, _) =>
      (match r with | .ok _ => .closed | .error e => .raised e, g)
where
  observe : Except (Exc V) (Option V) → Observed V
    | .ok v => .value v
    | .error e => .raised e

/-! ## One exchange -/

/-- The first exchange agrees: an exhausted generator has no value to give again. -/
def StartOk : Sub S T V → Prop
  | .gen g => g.done = true → g.ret = none
  | .user _ => True

/-- A later exchange agrees: a sub-generator answers GeneratorExit with an exception, and any
other iterator is sent nothing but None and lacks the method that an exception would reach. -/
def ResumeOk (body : Body S V) (user : T → UserIterator T V) : Sub S T V → Signal V → Prop
  | .gen g, .throw .generatorExit =>
    ∀ ev frame, body g.frame (.throw .generatorExit) = some (ev, frame) → ∃ e, ev = .failed e
  | .gen _, _ => True
  | .user _, .value v => v = none
  | .user t, .throw .generatorExit => (user t).close = none
  | .user t, .throw _ => (user t).throw = none

section Exchange
variable {body : Body S V} {user : T → UserIterator T V}

/-- At the frame boundary no StopIteration is left, so a call that fails ends the yield from
with the exception itself. -/
theorem callOutcome_result (ev : GenEvent V) :
    callOutcome (pep479 ev).result = (pep479 ev).outcome := by
  cases ev with
  | yielded v => rfl
  | returned v => rfl
  | failed e => cases e <;> rfl

theorem resume_result (g : Generator S V) (sig : Signal V) :
    ((g.resume body sig).map fun (ev, g, received) =>
        ((callOutcome ev.result, .gen g, received.map .resumed) : Exchange S T V)) =
      (g.resume body sig).map fun (ev, g, received) =>
        (ev.outcome, .gen g, received.map .resumed) := by
  cases hb : body g.frame sig with
  | none => simp [Generator.resume,hb]
  | some p => simp [Generator.resume,hb,callOutcome_result]

theorem delegate_eq_map (g : Generator S V) (sig : Signal V) :
    (delegate body g sig : Option (Exchange S T V)) =
      (g.step body sig).map fun (ev, g, received) => (ev.outcome, .gen g, received.map .resumed) := by
  cases h : g.step body sig with
  | none => simp [delegate,h]
  | some p => simp [delegate,h]

theorem start_eq_iff (sub : Sub S T V) :
    (yieldFrom body user).start sub = (pep380 body user).start sub ↔ StartOk sub := by
  cases sub with
  | user t => simp [yieldFrom,pep380,iterate,StartOk]
  | gen g =>
    simp only [yieldFrom,pep380,delegate_eq_map,StartOk,Generator.step,Generator.pySend]
    by_cases hd : g.done = true
    · simp [hd,GenEvent.outcome,callOutcome]
    · by_cases hr : g.running = true
      · simp [hd,hr,GenEvent.outcome,callOutcome,alreadyExecuting]
      · by_cases hs : g.started = false
        · simp [hd,hr,hs,resume_result,Function.comp_def]
        · simp [hd,hr,hs,resume_result,Function.comp_def]

variable {g : Generator S V}

theorem delegate_suspended (hg : g.Suspended) (sig : Signal V) :
    (delegate body g sig : Option (Exchange S T V)) =
      (g.resume body sig).map fun (ev, g, received) =>
        (ev.outcome, .gen g, received.map .resumed) := by
  obtain ⟨hs,hd,hr⟩ := hg
  simp [delegate_eq_map,Generator.step,hs,hd,hr]

/-- A sub-generator hears GeneratorExit the same way, but the expansion raises it again
whatever the sub-generator makes of it. -/
theorem exit_eq_iff (hg : g.Suspended) :
    (yieldFrom body user).resume (.gen g) (.throw .generatorExit) =
        (pep380 body user).resume (.gen g) (.throw .generatorExit) ↔
      ResumeOk body user (.gen g) (.throw .generatorExit) := by
  obtain ⟨hs,hd,hr⟩ := id hg
  simp only [yieldFrom,pep380,delegate_suspended hg,Generator.pyClose,ResumeOk]
  cases hb : body g.frame (.throw .generatorExit) with
  | none => simp [Generator.resume,hb,hs,hd,hr]
  | some p =>
    obtain ⟨ev,frame⟩ := p
    cases ev with
    | yielded v =>
      simp [Generator.resume,hb,hs,hd,hr,pep479,GenEvent.outcome,GenEvent.closeResult,
        exitOutcome]
    | returned v =>
      simp [Generator.resume,hb,hs,hd,hr,pep479,GenEvent.outcome,GenEvent.closeResult,
        exitOutcome]
    | failed e =>
      cases e <;>
        simp [Generator.resume,hb,hs,hd,hr,pep479,GenEvent.outcome,GenEvent.closeResult,
          exitOutcome]

theorem resume_gen_eq (hg : g.Suspended) {sig : Signal V} (hsig : sig ≠ .throw .generatorExit) :
    (yieldFrom body user).resume (.gen g) sig = (pep380 body user).resume (.gen g) sig := by
  obtain ⟨hs,hd,hr⟩ := id hg
  have hcall : (yieldFrom body user).resume (.gen g) sig =
      (g.resume body sig).map fun (ev, g, received) =>
        (callOutcome ev.result, .gen g, received.map .resumed) :=
    (delegate_suspended hg sig).trans (resume_result g sig).symm
  rw [hcall]
  cases sig with
  | value v =>
    simp [pep380,Generator.pySend,hs,hd,hr,Function.comp_def]
  | throw e =>
    have he : e ≠ .generatorExit := by
      rintro rfl
      exact hsig rfl
    simp [pep380,Generator.pyThrow,hs,hd,hr,Function.comp_def]

/-- A later exchange agrees exactly on the condition, for a sub-generator at a yield and for
any other iterator. -/
theorem resume_eq_iff {sub : Sub S T V} (hsub : ∀ g, sub = .gen g → g.Suspended)
    (sig : Signal V) :
    (yieldFrom body user).resume sub sig = (pep380 body user).resume sub sig ↔
      ResumeOk body user sub sig := by
  cases sub with
  | gen g =>
    by_cases hsig : sig = .throw .generatorExit
    · subst hsig
      exact exit_eq_iff (hsub g rfl)
    · have hok : ResumeOk body user (.gen g) sig := by
        cases sig with
        | value v => trivial
        | throw e => cases e <;> trivial
      simp [resume_gen_eq (hsub g rfl) hsig,hok]
  | user t =>
    cases sig with
    | value v =>
      cases v with
      | none => simp [yieldFrom,pep380,iterate,ResumeOk]
      | some v => cases hm : (user t).send <;> simp [yieldFrom,pep380,iterate,ResumeOk,hm]
    | throw e =>
      cases e with
      | generatorExit => cases hm : (user t).close <;> simp [yieldFrom,pep380,ResumeOk,hm]
      | stopIteration v => cases hm : (user t).throw <;> simp [yieldFrom,pep380,ResumeOk,hm]
      | raised kind msg => cases hm : (user t).throw <;> simp [yieldFrom,pep380,ResumeOk,hm]

end Exchange

/-! ## Whole runs -/

section Runs
variable [DecidableEq I] (body : Body S V) (user : T → UserIterator T V) (code : Code O I S T V)

/-- In every yield from that the code starts before it next suspends, the first exchange meets
its condition. -/
def CodeOk : Nat → Frame O I S T V → Signal V → Prop
  | 0, _, _ => True
  | n + 1, fr, sig =>
    let (ev, locals, subs) := code fr.locals fr.subs sig
    let fr := { fr with locals := locals, subs := subs, delegating := none }
    match ev with
    | .yieldFrom i =>
      StartOk (fr.subs i) ∧
        match (pep380 body user).start (fr.subs i) with
        | some (.value r, sub, received) => CodeOk n (fr.exchange i sub received) (.value r)
        | some (.raise e, sub, received) => CodeOk n (fr.exchange i sub received) (.throw e)
        | _ => True
    | _ => True

/-- The exchange with the sub-iterator in charge meets its condition, and so does what
follows. -/
def FrameOk (n : Nat) (fr : Frame O I S T V) (sig : Signal V) : Prop :=
  match fr.delegating with
  | none => CodeOk body user code n fr sig
  | some i =>
    ResumeOk body user (fr.subs i) sig ∧
      match (pep380 body user).resume (fr.subs i) sig with
      | some (.value r, sub, received) => CodeOk body user code n (fr.exchange i sub received) (.value r)
      | some (.raise e, sub, received) => CodeOk body user code n (fr.exchange i sub received) (.throw e)
      | _ => True

/-- The sub-generator in charge waits at a yield. -/
def Frame.Wf (fr : Frame O I S T V) : Prop :=
  ∀ i, fr.delegating = some i → ∀ g, fr.subs i = .gen g → g.Suspended

variable {body user code}

variable {g : Generator S V} {sig : Signal V}

theorem Generator.settle_suspended (hd : g.done = false) (v : Option V) (frame : S) :
    (g.settle (.yielded v) frame).Suspended :=
  ⟨rfl,hd,rfl⟩

variable {v : Option V} {received : List (SubCall V)} {sub sub' : Sub S T V}

theorem step_suspended {g' : Generator S V} {received : List (Signal V)}
    (h : g.step body sig = some (.yielded v, g', received)) : g'.Suspended := by
  have hresume : ∀ sig, g.done = false → g.resume body sig = some (.yielded v, g', received) →
      g'.Suspended := by
    intro sig hd hr
    cases hb : body g.frame sig with
    | none => simp [Generator.resume,hb] at hr
    | some p =>
      simp only [Generator.resume,hb,Option.some.injEq,Prod.mk.injEq] at hr
      obtain ⟨hev,rfl,-⟩ := hr
      rw [hev]
      exact Generator.settle_suspended hd v _
  by_cases hd : g.done = true
  · cases sig <;> simp [Generator.step,hd] at h
  · have hd' : g.done = false := by simpa using hd
    by_cases hr : g.running = true
    · simp [Generator.step,hd,hr] at h
    · by_cases hs : g.started = false
      · cases sig with
        | throw e => simp [Generator.step,hd,hr,hs] at h
        | value w =>
          apply hresume (.value none) hd'
          simpa [Generator.step,hd,hr,hs] using h
      · apply hresume sig hd'
        simpa [Generator.step,hd,hr,hs] using h

theorem delegate_suspends {sub : Sub S T V}
    (h : (delegate body g sig : Option (Exchange S T V)) = some (.suspended v, sub, received)) :
    ∀ g', sub = .gen g' → g'.Suspended := by
  rw [delegate_eq_map,Option.map_eq_some_iff] at h
  obtain ⟨⟨ev,g₁,rec₁⟩,hstep,heq⟩ := h
  simp only [Prod.mk.injEq] at heq
  obtain ⟨hev,rfl,-⟩ := heq
  intro g' hg'
  cases ev with
  | yielded w =>
    cases hg'
    exact step_suspended hstep
  | returned w => cases hev
  | failed e => cases hev

theorem start_suspends (h : (yieldFrom body user).start sub = some (.suspended v, sub', received)) :
    ∀ g, sub' = .gen g → g.Suspended := by
  cases sub with
  | gen g => exact delegate_suspends h
  | user t =>
    intro g hg
    simp [yieldFrom,iterate,hg] at h

theorem resume_suspends
    (h : (yieldFrom body user).resume sub sig = some (.suspended v, sub', received)) :
    ∀ g, sub' = .gen g → g.Suspended := by
  cases sub with
  | gen g => exact delegate_suspends h
  | user t =>
    intro g hg
    cases sig <;> simp [yieldFrom,iterate,hg] at h

omit [DecidableEq I] in
theorem Frame.wf_of_none {fr : Frame O I S T V} (h : fr.delegating = none) : fr.Wf := by
  intro i hi
  rw [h] at hi
  cases hi

omit [DecidableEq I] in
theorem Frame.wf_of_some {fr : Frame O I S T V} {i : I} (hd : fr.delegating = some i)
    (hsub : ∀ g, fr.subs i = .gen g → g.Suspended) : fr.Wf := by
  intro j hj
  rw [hd] at hj
  cases hj
  exact hsub

/-- The same value in both, and one with a property. -/
def SameAnd {γ : Type} (P : γ → Prop) (x y : Option γ) : Prop := x = y ∧ ∀ c, x = some c → P c

theorem SameAnd.none {γ : Type} {P : γ → Prop} : SameAnd P none none := ⟨rfl,nofun⟩
theorem SameAnd.some {γ : Type} {P : γ → Prop} {c : γ} (h : P c) : SameAnd P (some c) (some c) :=
  ⟨rfl,fun _ hc => Option.some.inj hc ▸ h⟩

theorem SameAnd.map {γ δ : Type} {P : γ → Prop} {Q : δ → Prop} {x y : Option γ} (h : SameAnd P x y)
    {f : γ → δ} (hf : ∀ c, P c → Q (f c)) : SameAnd Q (x.map f) (y.map f) := by
  refine ⟨by rw [h.1],fun d hd => ?_⟩
  obtain ⟨c,hc,rfl⟩ := Option.map_eq_some_iff.mp hd
  exact hf c (h.2 c hc)

variable {n : Nat} {fr : Frame O I S T V} {sig : Signal V}

theorem runCode_eq (h : CodeOk body user code n fr sig) :
    SameAnd (fun p => p.2.Wf) (runCode (yieldFrom body user) code n fr sig)
      (runCode (pep380 body user) code n fr sig) := by
  induction n generalizing fr sig with
  | zero => exact .none
  | succ n ih =>
    rcases hcode : code fr.locals fr.subs sig with ⟨ev,locals,subs⟩
    simp only [runCode,hcode]
    cases ev with
    | yielded v => exact .some (Frame.wf_of_none rfl)
    | returned v => exact .some (Frame.wf_of_none rfl)
    | failed e => exact .some (Frame.wf_of_none rfl)
    | yieldFrom i =>
      simp only [CodeOk,hcode] at h
      obtain ⟨hstart,hrest⟩ := h
      have hsame : (yieldFrom body user).start (subs i) = (pep380 body user).start (subs i) :=
        (start_eq_iff (subs i)).mpr hstart
      simp only
      rw [← hsame] at hrest ⊢
      cases hx : (yieldFrom body user).start (subs i) with
      | none => exact .none
      | some x =>
        obtain ⟨out,sub,received⟩ := x
        rw [hx] at hrest
        cases out with
        | suspended v =>
          refine .some (Frame.wf_of_some rfl ?_)
          simpa [Frame.exchange] using start_suspends hx
        | value r => exact ih hrest
        | raise e => exact ih hrest

theorem runFrame_eq (hwf : fr.Wf) (h : FrameOk body user code n fr sig) :
    SameAnd (fun p => p.2.Wf) (runFrame (yieldFrom body user) code n fr sig)
      (runFrame (pep380 body user) code n fr sig) := by
  unfold runFrame
  unfold FrameOk at h
  cases hd : fr.delegating with
  | none =>
    rw [hd] at h
    exact runCode_eq h
  | some i =>
    rw [hd] at h
    obtain ⟨hresume,hrest⟩ := h
    have hsame := (resume_eq_iff (hwf i hd) sig).mpr hresume
    simp only
    rw [← hsame] at hrest ⊢
    cases hx : (yieldFrom body user).resume (fr.subs i) sig with
    | none => exact .none
    | some x =>
      obtain ⟨out,sub,received⟩ := x
      rw [hx] at hrest
      cases out with
      | suspended v =>
        refine .some (Frame.wf_of_some hd ?_)
        simpa [Frame.exchange] using resume_suspends hx
      | value r => exact runCode_eq hrest
      | raise e => exact runCode_eq hrest

variable (body user code)

def SignalOk (n : Nat) (g : Generator (Frame O I S T V) V) (sig : Signal V) : Prop :=
  g.done = false → g.running = false → FrameOk body user code n g.frame sig

/-- A call on the delegating generator meets the conditions: it does not ask an exhausted
generator for its value again, and what it sets in motion meets theirs. -/
def CallOk (n : Nat) (g : Generator (Frame O I S T V) V) : Call V → Prop
  | .next => (g.done = true → g.ret = none) ∧ SignalOk body user code n g (.value none)
  | .send v =>
    (g.done = true → g.ret = none ∧ (g.started = true ∨ v = none)) ∧
      (g.started = true ∨ v = none → SignalOk body user code n g (.value v))
  | .throw e => g.started = true → SignalOk body user code n g (.throw e)
  | .close => g.started = true → SignalOk body user code n g (.throw .generatorExit)

def Conforms (n : Nat) : Generator (Frame O I S T V) V → List (Call V) → Prop
  | _, [] => True
  | g, c :: cs =>
    CallOk body user code n g c ∧
      ∀ o g', g.pyCall (runFrame (pep380 body user) code n) c = some (o, g') → Conforms n g' cs

variable {body user code}

def Idle (g : Generator (Frame O I S T V) V) : Prop := g.running = false ∧ g.frame.Wf
theorem Generator.resume_eq_map (b : Body S V) (g : Generator S V) (sig : Signal V) :
    g.resume b sig = (b g.frame sig).map fun p => (pep479 p.1, g.settle (pep479 p.1) p.2, [sig]) := by
  unfold Generator.resume
  cases b g.frame sig <;> rfl

variable {g : Generator (Frame O I S T V) V}

/-- What a driver sees of a call that resumes the body is the same, however it reads the
event. -/
theorem resume_observed_eq (hidle : Idle g) (h : FrameOk body user code n g.frame sig)
    (obs : GenEvent V → Observed V) :
    SameAnd (fun p => Idle p.2)
      ((g.resume (runFrame (yieldFrom body user) code n) sig).map fun (ev, g, _) => (obs ev, g))
      ((g.resume (runFrame (pep380 body user) code n) sig).map fun (ev, g, _) => (obs ev, g)) := by
  rw [Generator.resume_eq_map,Generator.resume_eq_map,Option.map_map,Option.map_map]
  apply (runFrame_eq hidle.2 h).map
  intro p hp
  cases hev : pep479 p.1 <;> exact ⟨by simp [Generator.settle,hev],by simpa [Generator.settle,hev] using hp⟩

theorem observed_eq (ev : GenEvent V) : ev.observed = Generator.pyCall.observe ev.result := by
  cases ev <;> rfl
theorem closeOutcome_eq (ev : GenEvent V) :
    closeOutcome ev = match ev.closeResult with | .ok _ => .closed | .error e => .raised e := by
  cases ev with
  | yielded v => rfl
  | returned v => rfl
  | failed e => cases e <;> rfl

omit [DecidableEq I] in
theorem same_idle (hidle : Idle g) (o : Observed V) :
    SameAnd (fun p => Idle p.2) (some (o, g)) (some (o, g)) := .some hidle

theorem call_done_eq {c : Call V} (hidle : Idle g) (hd : g.done = true)
    (h : CallOk body user code n g c) :
    SameAnd (fun p => Idle p.2) (g.call (runFrame (yieldFrom body user) code n) c)
      (g.pyCall (runFrame (pep380 body user) code n) c) := by
  have hkeep := same_idle hidle
  cases c with
  | next =>
    simpa [Generator.call,Generator.pyCall,Generator.step,Generator.pySend,hd,h.1 hd,
      GenEvent.observed,Generator.pyCall.observe] using hkeep (.raised (.stopIteration none))
  | send v =>
    obtain ⟨hret,hv⟩ := h.1 hd
    have hnot : ¬ (g.started = false ∧ v ≠ none) := by
      rintro ⟨hs,hne⟩
      rcases hv with hv | hv
      · simp [hs] at hv
      · exact hne hv
    simpa [Generator.call,Generator.send,Generator.pyCall,Generator.step,Generator.pySend,
      hd,hret,hnot,GenEvent.observed,Generator.pyCall.observe] using
      hkeep (.raised (.stopIteration none))
  | throw e =>
    simpa [Generator.call,Generator.throwInto,Generator.pyCall,Generator.step,
      Generator.pyThrow,hd,GenEvent.observed,Generator.pyCall.observe] using
      hkeep (.raised e)
  | close =>
    have hself : { g with done := true } = g := by rw [← hd]
    simpa [Generator.call,Generator.closeGen,Generator.pyCall,Generator.pyClose,hd,hself]
      using hkeep .closed

theorem call_live_eq {c : Call V} (hidle : Idle g) (hd : g.done = false)
    (h : CallOk body user code n g c) :
    SameAnd (fun p => Idle p.2) (g.call (runFrame (yieldFrom body user) code n) c)
      (g.pyCall (runFrame (pep380 body user) code n) c) := by
  have hr := hidle.1
  have hover : Idle { g with done := true } := hidle
  cases c with
  | next =>
    have heq := resume_observed_eq hidle (h.2 hd hr) GenEvent.observed
    cases hs : g.started <;>
      simpa [Generator.call,Generator.pyCall,Generator.step,Generator.pySend,hd,hr,hs,
        observed_eq,Function.comp_def] using heq
  | send v =>
    by_cases hfresh : g.started = false ∧ v ≠ none
    · simpa [Generator.call,Generator.send,Generator.pyCall,Generator.pySend,hd,hr,hfresh,
        Generator.pyCall.observe] using same_idle hidle (.raised sendToFresh)
    · have hv : g.started = true ∨ v = none := by
        cases hs : g.started
        · right
          by_contra hne
          exact hfresh ⟨hs,hne⟩
        · exact Or.inl rfl
      have heq := resume_observed_eq hidle (h.2 hv hd hr) GenEvent.observed
      cases hs : g.started with
      | false =>
        have hnone : v = none := by simpa [hs] using hv
        subst hnone
        simpa [Generator.call,Generator.send,Generator.pyCall,Generator.step,
          Generator.pySend,hd,hr,hs,observed_eq,Function.comp_def] using heq
      | true =>
        simpa [Generator.call,Generator.send,Generator.pyCall,Generator.step,
          Generator.pySend,hd,hr,hs,observed_eq,Function.comp_def] using heq
  | throw e =>
    cases hs : g.started with
    | false =>
      simpa [Generator.call,Generator.throwInto,Generator.pyCall,Generator.step,
        Generator.pyThrow,hd,hr,hs,GenEvent.observed,Generator.pyCall.observe] using
        same_idle hover (.raised e)
    | true =>
      have heq := resume_observed_eq hidle (h hs hd hr) GenEvent.observed
      simpa [Generator.call,Generator.throwInto,Generator.pyCall,Generator.step,
        Generator.pyThrow,hd,hr,hs,observed_eq,Function.comp_def] using heq
  | close =>
    cases hs : g.started with
    | false =>
      simpa [Generator.call,Generator.closeGen,Generator.pyCall,Generator.pyClose,hs] using
        same_idle hover .closed
    | true =>
      have heq := resume_observed_eq hidle (h hs hd hr) closeOutcome
      simpa [Generator.call,Generator.closeGen,Generator.pyCall,Generator.step,
        Generator.pyClose,hd,hr,hs,closeOutcome_eq,Function.comp_def] using heq

theorem drive_eq {calls : List (Call V)} (hidle : Idle g) (h : Conforms body user code n g calls) :
    drive (Generator.call (runFrame (yieldFrom body user) code n)) g calls =
      drive (Generator.pyCall (runFrame (pep380 body user) code n)) g calls := by
  induction calls generalizing g with
  | nil => rfl
  | cons c cs ih =>
    obtain ⟨hcall,hrest⟩ := h
    obtain ⟨hsame,hnext⟩ : SameAnd (fun p => Idle p.2)
        (g.call (runFrame (yieldFrom body user) code n) c)
        (g.pyCall (runFrame (pep380 body user) code n) c) := by
      cases hd : g.done with
      | false => exact call_live_eq hidle hd hcall
      | true => exact call_done_eq hidle hd hcall
    cases hx : g.call (runFrame (yieldFrom body user) code n) c with
    | none =>
      have hx' := hsame ▸ hx
      simp only [drive,hx,hx']
    | some p =>
      obtain ⟨o,g'⟩ := p
      have hx' := hsame ▸ hx
      simp only [drive,hx,hx',ih (hnext (o, g') hx) (hrest o g' hx')]

end Runs

/-- `YieldFrom` implements the expansion except at an exhausted generator that returned a value, at a
sub-generator that does not answer GeneratorExit with an exception, and at another iterator that
should have been sent a value or had a method called. Every run of a delegating generator whose
calls meet the conditions shows the driver and the sub-iterators the same. -/
theorem yieldFrom_agrees [DecidableEq I] (body : Body S V) (user : T → UserIterator T V) :
    (∀ sub, (yieldFrom body user).start sub = (pep380 body user).start sub ↔ StartOk sub) ∧
      (∀ sub sig, (∀ g, sub = .gen g → g.Suspended) →
        ((yieldFrom body user).resume sub sig = (pep380 body user).resume sub sig ↔
          ResumeOk body user sub sig)) ∧
      ∀ (code : Code O I S T V) (n : Nat) (g : Generator (Frame O I S T V) V)
        (calls : List (Call V)), Idle g → Conforms body user code n g calls →
        drive (Generator.call (runFrame (yieldFrom body user) code n)) g calls =
          drive (Generator.pyCall (runFrame (pep380 body user) code n)) g calls :=
  ⟨start_eq_iff,fun _ sig hsub => resume_eq_iff hsub sig,
    fun _ _ _ _ hidle h => drive_eq hidle h⟩

/-- A generator that yields 1, returns what it is sent, and returns 7 when it is closed. -/
def stubborn : Body Bool Nat
  | false, _ => some (.yielded (some 1), true)
  | true, .value v => some (.returned v, true)
  | true, .throw .generatorExit => some (.returned (some 7), true)
  | true, .throw e => some (.failed e, true)

def emptyIterator (_ : Unit) : UserIterator Unit Nat :=
  { next := fun t => (.error (.stopIteration none), t), send := none, throw := none, close := none }
def echo : Code Bool Unit Bool Unit Nat
  | false, subs, _ => (.yieldFrom (), true, subs)
  | true, subs, .value r => (.yielded r, true, subs)
  | true, subs, .throw e => (.failed e, true, subs)
def freshEcho : Generator (Frame Bool Unit Bool Unit Nat) Nat :=
  { frame := { locals := false, subs := fun _ => .gen { frame := false } } }

theorem stubborn_send_agrees :
    drive (Generator.call (runFrame (yieldFrom stubborn emptyIterator) echo 3)) freshEcho
        [.next, .send (some 5)] =
      drive (Generator.pyCall (runFrame (pep380 stubborn emptyIterator) echo 3)) freshEcho
        [.next, .send (some 5)] := by
  refine (yieldFrom_agrees stubborn emptyIterator).2.2 echo 3 freshEcho _
    ⟨rfl,by intro i hi; cases hi⟩ ⟨⟨by simp [freshEcho],?_⟩,?_⟩
  · intro _ _
    exact ⟨(by intro hd; cases hd),trivial⟩
  · intro o g' hcall
    cases hcall
    refine ⟨⟨(by intro hd; cases hd),?_⟩,fun _ _ _ => trivial⟩
    intro _ _ _
    exact ⟨trivial,trivial⟩

/-- Closing the delegating generator while the sub-generator swallows GeneratorExit: the
expansion raises it in the outer body, but `delegate` goes on with the value 7. -/
theorem stubborn_close_differs :
    (drive (Generator.call (runFrame (yieldFrom stubborn emptyIterator) echo 3)) freshEcho
        [.next, .close]).map Prod.fst = some [.value (some 1), .raised ignoredExit] ∧
      (drive (Generator.pyCall (runFrame (pep380 stubborn emptyIterator) echo 3)) freshEcho
        [.next, .close]).map Prod.fst = some [.value (some 1), .closed] :=
  ⟨rfl,rfl⟩

end Unagi.Objects
