import Unagi.Asyncio.Queue

/-! # Wake-ups of the queue

A put wakes one getter for its item, and a get one putter for its room. As long as a getter is pending,
there are at least as many woken getters as items, and so for the putters and the room. -/

namespace Unagi.Asyncio

open Unagi.Objects Unagi.Runtime

variable {C α : Type} {less : α → α → Bool}

namespace QueueLoop

def avail (s : QueueLoop C α) : Side → Nat
  | .get => s.items.length
  | .put => (s.maxsize - s.items.length).toNat

/-- A task that is suspended in an operation is among the waiters of its side, or among the woken ones. -/
structure Tidy (s : QueueLoop C α) : Prop where
  owner : ∀ d, ∀ w ∈ s.waiters d, s.loop.doneP w = false →
    ∃ t, s.parked t = some w ∧ (s.doing t).side = d
  summoned : ∀ d, ∀ w ∈ s.called d, s.loop.Woken w ∧ ∃ t, s.parked t = some w ∧ (s.doing t).side = d
  listed : ∀ t w, s.parked t = some w → s.loop.doneP w = false → w ∈ s.waiters (s.doing t).side
  counted : ∀ t w, s.parked t = some w → s.loop.Woken w → w ∈ s.called (s.doing t).side
  nodup : ∀ d, (s.called d).Nodup
  bounded : ∀ t w, s.parked t = some w → (s.doing t).side = .put → 0 < s.maxsize

/-- While a waiter is pending, all but `k` of what is there is on its way to woken ones. -/
def Short (s : QueueLoop C α) (d : Side) (k : Nat) : Prop :=
  (∃ w ∈ s.waiters d, s.loop.doneP w = false) → s.avail d ≤ (s.called d).length + k

structure Good (s : QueueLoop C α) : Prop where
  tidy : s.Tidy
  armed : s.toParking.Armed
  served : ∀ d, s.Short d 0

theorem start_good (kind : QueueKind) (maxsize : Int) : (start kind maxsize : QueueLoop C α).Good := by
  refine ⟨⟨?_,?_,?_,?_,?_,?_⟩,?_,?_⟩
  all_goals simp [start,Parking.start,Parking.Armed,Short]

section
variable {kind : QueueKind} {maxsize : Int} {s s' : QueueLoop C α} {p : Parking C} {t : TaskId}
  {w : FutId} {x : Option TaskId} {d : Side}

/-! ## Waking a waiter -/

theorem mem_update_waiters {rest : List FutId} {v : FutId} (h : v ∈ rest ↔ v ∈ s.waiters d)
    (d' : Side) : v ∈ Function.update s.waiters d rest d' ↔ v ∈ s.waiters d' := by
  by_cases hd : d' = d
  · subst hd
    simpa using h
  · simp [hd]

theorem Tidy.wakeupNext (ht : s.Tidy) (h : s.toParking.InvBut x) (hknown : ∀ w ∈ s.waiters d, w ∈ s.made) :
    (s.wakeupNext d).Tidy := by
  rcases wakeupNext_cases s d with ⟨front,w,rest,heq,hfront,hpending,hwake⟩ | ⟨hdone,hwake⟩
  · have hw : w ∈ s.waiters d := by simp [heq]
    obtain ⟨t,hpark,hside⟩ := ht.owner d w hw hpending
    have hasleep : ¬ s.loop.Woken w := h.not_woken (hknown w hw) hpending
    have hawake : (s.toParking.wake w (.obj 0)).loop.Woken w := ⟨_,(Parking.wake_self hpending _).2⟩
    have hother {v : FutId} (hv : v ≠ w) : (s.toParking.wake w (.obj 0)).loop.futures v = s.loop.futures v :=
      Parking.wake_ne hv _
    have hne {v : FutId} (hv : (s.toParking.wake w (.obj 0)).loop.doneP v = false) : v ≠ w := by
      rintro rfl
      rw [(Parking.wake_self hpending _).1] at hv
      cases hv
    have hmem {v : FutId} {d' : Side} (hv : v ≠ w) (hpend : s.loop.doneP v = false) :
        v ∈ Function.update s.waiters d rest d' ↔ v ∈ s.waiters d' := by
      have hnot : v ∉ front := fun hf => by simp [hfront v hf] at hpend
      exact mem_update_waiters (by simp [heq,hv,hnot]) d'
    rw [hwake]
    refine ⟨fun d' v hv hpend => ?_,fun d' v hv => ?_,fun u v hu hpend => ?_,fun u v hu hwoken => ?_,
      fun d' => ?_,ht.bounded⟩
    · have hvw := hne hpend
      rw [Loop.doneP,hother hvw] at hpend
      exact ht.owner d' v ((hmem hvw hpend).mp hv) hpend
    · by_cases hvw : v = w
      · subst hvw
        refine ⟨hawake,t,hpark,?_⟩
        by_cases hd : d' = d
        · rw [hside,hd]
        · have hold : v ∈ s.called d' := by simpa [hd] using hv
          exact absurd (ht.summoned d' v hold).1 hasleep
      · have hold : v ∈ s.called d' := by
          by_cases hd : d' = d
          · subst hd
            simpa [hvw] using hv
          · simpa [hd] using hv
        rw [Loop.Woken,hother hvw]
        exact ht.summoned d' v hold
    · have hvw := hne hpend
      rw [Loop.doneP,hother hvw] at hpend
      exact (hmem hvw hpend).mpr (ht.listed u v hu hpend)
    · by_cases hvw : v = w
      · subst hvw
        rw [h.inj u t v hu hpark,hside]
        simp
      · rw [Loop.Woken,hother hvw] at hwoken
        have hold := ht.counted u v hu hwoken
        by_cases hd : (s.doing u).side = d
        · simp [hd,hd ▸ hold]
        · simpa [hd] using hold
    · by_cases hd : d' = d
      · subst hd
        have hnot : w ∉ s.called d' := fun hc => hasleep (ht.summoned d' w hc).1
        simpa using List.nodup_cons.mpr ⟨hnot,ht.nodup d'⟩
      · simpa [hd] using ht.nodup d'
  · rw [hwake]
    have hmem {v : FutId} {d' : Side} (hpend : s.loop.doneP v = false) :
        v ∈ Function.update s.waiters d [] d' ↔ v ∈ s.waiters d' := by
      have hnot : v ∉ s.waiters d := fun hf => by simp [hdone v hf] at hpend
      exact mem_update_waiters (by simp [hnot]) d'
    exact ⟨fun d' v hv hpend => ht.owner d' v ((hmem hpend).mp hv) hpend,ht.summoned,
      fun u v hu hpend => (hmem hpend).mpr (ht.listed u v hu hpend),ht.counted,ht.nodup,ht.bounded⟩

theorem wakeupNext_armed (ha : s.toParking.Armed) (d : Side) : (s.wakeupNext d).toParking.Armed := by
  rcases wakeupNext_cases s d with ⟨front,w,rest,-,-,hpending,hwake⟩ | ⟨-,hwake⟩
  · rw [hwake]
    exact ha.wake hpending _
  · rw [hwake]
    exact ha

theorem short_wakeupNext (hd : s.Short d 1) (hother : ∀ d', d' ≠ d → s.Short d' 0) (d' : Side) :
    (s.wakeupNext d).Short d' 0 := by
  rcases wakeupNext_cases s d with ⟨front,w,rest,heq,-,hpending,hwake⟩ | ⟨hdone,hwake⟩
  · rw [hwake]
    by_cases hdd : d' = d
    · subst hdd
      have hle := hd ⟨w,by simp [heq],hpending⟩
      intro _
      show s.avail d' ≤ (Function.update s.called d' (w :: s.called d') d').length + 0
      rw [Function.update_self,List.length_cons]
      exact hle
    · rintro ⟨v,hv,hpend⟩
      have hvw : v ≠ w := by
        rintro rfl
        rw [(Parking.wake_self hpending _).1] at hpend
        cases hpend
      rw [Loop.doneP,Parking.wake_ne hvw] at hpend
      have hle := hother d' hdd ⟨v,by simpa [hdd] using hv,hpend⟩
      show s.avail d' ≤ (Function.update s.called d (w :: s.called d) d').length + 0
      rwa [Function.update_of_ne hdd]
  · rw [hwake]
    by_cases hdd : d' = d
    · subst hdd
      rintro ⟨v,hv,-⟩
      simp at hv
    · rintro ⟨v,hv,hpend⟩
      exact hother d' hdd ⟨v,by simpa [hdd] using hv,hpend⟩

theorem noWait_good (ht : s.Tidy) (ha : s.toParking.Armed) (h : s.InvBut less kind maxsize x) (op : QueueOp α) (hopen : s.isShutdown = false)
    (hfree : s.blocked op.side = false) (hside : s.Short op.side 1)
    (hother : ∀ d, d ≠ op.side → s.Short d 0) : (s.noWait less op).Good := by
  rcases noWait_cases h op with ⟨-,hb | hb⟩ | ⟨items,entry,heq,-,hlen,-⟩
  · rw [hfree] at hb
    cases hb
  · rw [hopen] at hb
    cases hb
  · have htidy : ({ s with items := items, history := entry :: s.history } : QueueLoop C α).Tidy :=
      ⟨ht.owner,ht.summoned,ht.listed,ht.counted,ht.nodup,ht.bounded⟩
    rw [heq]
    refine ⟨htidy.wakeupNext h.parking (h.known _),?_,short_wakeupNext ?_ ?_⟩
    · apply wakeupNext_armed
      exact ha
    · intro hpending
      have hle := hother op.wakes (by cases op <;> simp [QueueOp.wakes,QueueOp.side]) hpending
      cases op <;> simp only [QueueOp.wakes,avail] at hle hlen ⊢ <;> omega
    · intro d hd hpending
      obtain rfl : d = op.side := by
        cases op <;> cases d <;> simp_all [QueueOp.wakes,QueueOp.side]
      have hle := hside hpending
      cases op <;> simp only [QueueOp.side,avail] at hle hlen ⊢ <;> omega

theorem await_good (ht : s.Tidy) (ha : s.toParking.Armed) (h : s.Inv less kind maxsize)
    (op : QueueOp α) (hopen : s.isShutdown = false) (hcur : s.loop.current = some t)
    (hmust : (s.loop.tasks t).mustCancel = false) (hside : s.Short op.side 1)
    (hother : ∀ d, d ≠ op.side → s.Short d 0) : (s.await less t op).Good := by
  unfold await
  split
  · rename_i hblocked
    rw [if_neg (by simp [hopen])]
    obtain ⟨-,hout,hfut,-⟩ := h.parking.park_frame hcur
    have hidle := h.parking.running_free hcur
    have hold {u : TaskId} {v : FutId} (hu : s.parked u = some v) :
        (s.toParking.park t).loop.futures v = s.loop.futures v := hfut v (h.parking.queued u v hu).1
    have hdoing {u : TaskId} (hut : u ≠ t) : Function.update s.doing t op u = s.doing u :=
      Function.update_of_ne hut _ _
    have hkept {u : TaskId} {v : FutId} {d : Side} (hu : s.parked u = some v)
        (hd : (s.doing u).side = d) : ∃ u, (s.toParking.park t).parked u = some v ∧
        (Function.update s.doing t op u).side = d := by
      obtain ⟨hut,hu⟩ := Parking.park_of_ne hidle hu
      exact ⟨u,hu,by rw [hdoing hut,hd]⟩
    refine ⟨⟨fun d v hv hpend => ?_,fun d v hv => ?_,fun u v hu hpend => ?_,fun u v hu hwoken => ?_,
      ht.nodup,fun u v hu hput => ?_⟩,ha.park h.parking hcur hmust,fun d => ?_⟩
    · rcases mem_enlisted.mp hv with hv | ⟨rfl,rfl⟩
      · rw [Loop.doneP,hfut v (h.known d v hv)] at hpend
        obtain ⟨u,hu,hd⟩ := ht.owner d v hv hpend
        exact hkept hu hd
      · exact ⟨t,by simp [Parking.park],by simp⟩
    · obtain ⟨hwoken,u,hu,hd⟩ := ht.summoned d v hv
      rw [Loop.Woken,hold hu]
      exact ⟨hwoken,hkept hu hd⟩
    · rcases Parking.park_eq_some hu with ⟨rfl,rfl⟩ | ⟨hut,hu⟩
      · exact mem_enlisted.mpr (.inr ⟨by simp,rfl⟩)
      · rw [Loop.doneP,hold hu] at hpend
        refine mem_enlisted.mpr (.inl ?_)
        show v ∈ s.waiters (Function.update s.doing t op u).side
        rw [hdoing hut]
        exact ht.listed u v hu hpend
    · rcases Parking.park_eq_some hu with ⟨rfl,rfl⟩ | ⟨hut,hu⟩
      · obtain ⟨o,ho⟩ := hwoken
        rw [hout] at ho
        cases ho
      · rw [Loop.Woken,hold hu] at hwoken
        show v ∈ s.called (Function.update s.doing t op u).side
        rw [hdoing hut]
        exact ht.counted u v hu hwoken
    · rcases Parking.park_eq_some hu with ⟨rfl,-⟩ | ⟨hut,hu⟩
      · have hop : op.side = .put := by simpa using hput
        rw [hop] at hblocked
        simp only [blocked,full,Bool.and_eq_true,decide_eq_true_eq] at hblocked
        exact hblocked.1
      · exact ht.bounded u v hu (hdoing hut ▸ hput)
    · by_cases hd : d = op.side
      · subst hd
        intro _
        have hnone : s.avail op.side = 0 := by
          cases op with
          | get => simpa [blocked,empty,QueueOp.side,avail] using hblocked
          | put item =>
            simp only [blocked,full,QueueOp.side,Bool.and_eq_true,decide_eq_true_eq] at hblocked
            simp only [QueueOp.side,avail]
            omega
        exact hnone.trans_le (Nat.zero_le _)
      · rintro ⟨v,hv,hpend⟩
        rcases mem_enlisted.mp hv with hv | ⟨hd',-⟩
        · rw [Loop.doneP,hfut v (h.known d v hv)] at hpend
          exact hother d hd ⟨v,hv,hpend⟩
        · exact absurd hd' hd
  · rename_i hfree
    exact noWait_good ht ha h op hopen (Bool.eq_false_iff.mpr hfree) hside hother

/-! ## Runs that lose no wake-up -/

/-- No task is cancelled after it was woken, and none that parks is to be cancelled. -/
def Careful (s : QueueLoop C α) : QueueEvent C α → Prop
  | .loop e => s.toParking.Spares e
  | .await op => s.blocked op.side = true → ∀ t, s.loop.current = some t →
      (s.loop.tasks t).mustCancel = false
  | _ => True

theorem Tidy.leave (ht : s.Tidy) (h : s.toParking.InvBut x) (hpark : s.parked t = some w)
    (hdone : s.loop.doneP w = true) :
    ({ s with toParking := s.toParking.unpark t, called := fun d => (s.called d).erase w } :
      QueueLoop C α).Tidy := by
  have hkept {u : TaskId} {v : FutId} {d : Side} (hv : v ≠ w) (hu : s.parked u = some v)
      (hd : (s.doing u).side = d) :
      ∃ u, (s.toParking.unpark t).parked u = some v ∧ (s.doing u).side = d := by
    have hut : u ≠ t := by
      rintro rfl
      exact hv (Option.some.inj (hu.symm.trans hpark))
    exact ⟨u,by simpa [Parking.unpark,hut] using hu,hd⟩
  refine ⟨fun d v hv hpend => ?_,fun d v hv => ?_,fun u v hu hpend => ?_,fun u v hu hwoken => ?_,
    fun d => (ht.nodup d).erase w,fun u v hu => ht.bounded u v (Parking.unpark_eq_some hu).2⟩
  · obtain ⟨u,hu,hd⟩ := ht.owner d v hv hpend
    refine hkept ?_ hu hd
    rintro rfl
    exact absurd (hdone.symm.trans hpend) (by decide)
  · obtain ⟨hvw,hv⟩ := (ht.nodup d).mem_erase_iff.mp hv
    obtain ⟨hwoken,u,hu,hd⟩ := ht.summoned d v hv
    exact ⟨hwoken,hkept hvw hu hd⟩
  · exact ht.listed u v (Parking.unpark_eq_some hu).2 hpend
  · obtain ⟨hut,hold⟩ := Parking.unpark_eq_some hu
    refine (ht.nodup _).mem_erase_iff.mpr ⟨?_,ht.counted u v hold hwoken⟩
    rintro rfl
    exact hut (h.inj u t v hold hpark)

theorem Tidy.event {e : Event C} (ht : s.Tidy) (h : s.Inv less kind maxsize) (hstep : s.toParking.step e = some p) :
    ({ s with toParking := p } : QueueLoop C α).Tidy := by
  have hawake (v : FutId) (hv : v ∈ s.made) := h.parking.awake_iff hstep hv
  obtain ⟨l,hl,htouch,rfl⟩ := Parking.step_cases hstep
  refine ⟨fun d v hv hpend => ?_,fun d v hv => ?_,fun u v hu hpend => ?_,fun u v hu hwoken => ?_,
    ht.nodup,ht.bounded⟩
  · exact ht.owner d v hv ((hawake v (h.known d v hv)).2 hpend)
  · obtain ⟨hwoken,u,hu,hd⟩ := ht.summoned d v hv
    exact ⟨(hawake v (h.parking.queued u v hu).1).1.mpr hwoken,u,hu,hd⟩
  · exact ht.listed u v hu ((hawake v (h.parking.queued u v hu).1).2 hpend)
  · exact ht.counted u v hu ((hawake v (h.parking.queued u v hu).1).1.mp hwoken)

theorem resume_good (ht : s.Tidy) (h : s.InvBut less kind maxsize (some t))
    (ha : (s.toParking.unpark t).Armed) (hserved : ∀ d, s.Short d 0) (hopen : s.isShutdown = false)
    (hcur : s.loop.current = some t) (hmust : (s.loop.tasks t).mustCancel = false)
    (hpark : s.parked t = some w) (hdone : s.loop.doneP w = true)
    (hkeep : s.loop.Woken w → s.granted w = true) : (s.resume less t w).Good := by
  have htidy := ht.leave h.parking hpark hdone
  have hsame (d : Side) (hw : w ∉ s.called d) : (s.called d).erase w = s.called d :=
    List.erase_of_not_mem hw
  unfold resume
  dsimp only
  split
  · rename_i hgranted
    have hmem := ht.counted t w hpark (Parking.granted_iff.mp hgranted).2
    refine await_good htidy ha (h.leave w) (s.doing t) hopen hcur hmust ?_ fun d hd hpending => ?_
    · intro hpending
      have hle := hserved (s.doing t).side hpending
      have hlen := List.length_erase_of_mem hmem
      have hpos := List.length_pos_of_mem hmem
      show s.avail (s.doing t).side ≤ ((s.called (s.doing t).side).erase w).length + 1
      omega
    · have hnot : w ∉ s.called d := by
        intro hw
        obtain ⟨-,u,hu,hside⟩ := ht.summoned d w hw
        rw [h.parking.inj u t w hu hpark] at hside
        exact hd hside.symm
      show s.avail d ≤ ((s.called d).erase w).length + 0
      rw [hsame d hnot]
      exact hserved d hpending
  · rename_i hdenied
    refine ⟨htidy,ha,fun d hpending => ?_⟩
    have hnot : w ∉ s.called d := fun hw => hdenied (hkeep (ht.summoned d w hw).1)
    show s.avail d ≤ ((s.called d).erase w).length + 0
    rw [hsame d hnot]
    exact hserved d hpending

theorem resumed_done {e : Event C} (h : s.Inv less kind maxsize) (hstep : s.toParking.step e = some p)
    (hcur : p.loop.current = some t) (hpark : p.parked t = some w) :
    p.loop.doneP w = true ∧ (p.loop.tasks t).mustCancel = false := by
  have hawake (v : FutId) (hv : v ∈ s.made) := (h.parking.awake_iff hstep hv).2
  obtain ⟨l,hl,-,rfl⟩ := Parking.step_cases hstep
  by_cases htick : e = .tick
  · subst htick
    obtain ⟨rest,hnext,hlive,rfl⟩ := Loop.tick_resumed hl hcur
    have hdone := h.parking.done_of_ready hpark (hnext ▸ List.mem_cons_self)
    refine ⟨?_,?_⟩
    · by_contra hpend
      rw [hawake w (h.parking.queued t w hpark).1 (Bool.eq_false_iff.mpr hpend)] at hdone
      cases hdone
    · rw [Loop.beginStep,if_neg (by rw [Bool.not_eq_true]; exact hlive)]
      simp [Loop.modTask]
  · rcases Loop.step_current hl htick with heq | heq
    · rw [h.parking.running_free (heq.symm.trans hcur)] at hpark
      cases hpark
    · rw [heq] at hcur
      cases hcur

theorem step_good {e : QueueEvent C α} (hstep : s.step less e = some s') (hok : s.Careful e)
    (h : s.Inv less kind maxsize) (hopen : s.isShutdown = false) (hg : s.Good)
    (hopen' : s'.isShutdown = false) : s'.Good := by
  have hslack (d : Side) : s.Short d 1 := fun hpending => (hg.served d hpending).trans (Nat.le_succ _)
  have hnow (op : QueueOp α) (hfree : ¬ s.blocked op.side = true) : (s.noWait less op).Good :=
    noWait_good hg.tidy hg.armed h op hopen (Bool.eq_false_iff.mpr hfree) (hslack _)
      fun d _ => hg.served d
  rcases step_cases hstep with ⟨e,p,rfl,hp,hcases⟩ | ⟨op,t,rfl,hcur,rfl⟩ | ⟨op,rfl,rfl⟩ |
    ⟨immediate,rfl,rfl⟩
  · have htidy := hg.tidy.event h hp
    have hev := loop_inv h hp
    obtain ⟨harmed,hkeep⟩ := hg.armed.step h.parking hok hp
    have hserved (d : Side) : ({ s with toParking := p } : QueueLoop C α).Short d 0 := by
      rintro ⟨v,hv,hpend⟩
      exact hg.served d ⟨v,hv,(h.parking.awake_iff hp (h.known d v hv)).2 hpend⟩
    rcases hcases with ⟨hres,rfl⟩ | ⟨t,w,hres,rfl⟩
    · exact ⟨htidy,harmed hres,hserved⟩
    · obtain ⟨hcur,hpark⟩ := Parking.resumed_eq_some hres
      obtain ⟨hdone,hmust⟩ := resumed_done h hp hcur hpark
      rw [hcur] at hev
      exact resume_good htidy hev (hkeep t w hres).1 hserved hopen hcur hmust hpark hdone
        (hkeep t w hres).2
  · by_cases hblocked : s.blocked op.side = true
    · exact await_good hg.tidy hg.armed h op hopen hcur (hok hblocked t hcur) (hslack _)
        fun d _ => hg.served d
    · rw [await,if_neg hblocked]
      exact hnow op hblocked
  · by_cases hblocked : s.blocked op.side = true
    · rcases noWait_cases h op with ⟨heq,-⟩ | ⟨_,_,-,hfree,-⟩
      · rwa [heq]
      · rw [hblocked] at hfree
        cases hfree
    · exact hnow op hblocked
  · cases hopen'

/-! ## A queue that is shut down stays so -/

theorem noWait_isShutdown (h : s.InvBut less kind maxsize x) (op : QueueOp α) :
    (s.noWait less op).isShutdown = s.isShutdown := by
  have hwake (s : QueueLoop C α) (d : Side) : (s.wakeupNext d).isShutdown = s.isShutdown := by
    rcases wakeupNext_cases s d with ⟨_,_,_,-,-,-,heq⟩ | ⟨-,heq⟩ <;> rw [heq]
  rcases noWait_cases h op with ⟨heq,-⟩ | ⟨_,_,heq,-⟩
  · rw [heq]
  · rw [heq]
    exact hwake _ _

theorem await_isShutdown (h : s.InvBut less kind maxsize x) (t : TaskId) (op : QueueOp α) :
    (s.await less t op).isShutdown = s.isShutdown := by
  unfold await
  split_ifs
  · rfl
  · rfl
  · exact noWait_isShutdown h op

theorem step_isShutdown {e : QueueEvent C α} (hstep : s.step less e = some s')
    (h : s.Inv less kind maxsize) (hopen : s'.isShutdown = false) : s.isShutdown = false := by
  rcases step_cases hstep with ⟨e,p,rfl,hp,⟨hres,rfl⟩ | ⟨t,w,hres,rfl⟩⟩ |
    ⟨op,t,rfl,hcur,rfl⟩ | ⟨op,rfl,rfl⟩ | ⟨immediate,rfl,rfl⟩
  · exact hopen
  · obtain ⟨hcur,-⟩ := Parking.resumed_eq_some hres
    have hev := loop_inv h hp
    rw [hcur] at hev
    revert hopen
    unfold resume
    dsimp only
    split
    · rw [await_isShutdown (hev.leave w)]
      exact id
    · exact id
  · rwa [await_isShutdown h] at hopen
  · rwa [noWait_isShutdown h] at hopen
  · cases hopen

/-- In an idle loop, a task is suspended in an operation only if the queue is empty or full. -/
def NoneStranded (s : QueueLoop C α) : Prop :=
  s.loop.ready = [] → s.isShutdown = false → ∀ t w, s.parked t = some w → s.blocked (s.doing t).side = true

theorem Good.none_stranded (hg : s.Good) (h : s.Inv less kind maxsize) (hidle : s.loop.ready = [])
    (hpark : s.parked t = some w) : s.blocked (s.doing t).side = true := by
  have hpending := h.parking.pending_of_idle hidle hpark
  have hnone (d : Side) : s.called d = [] := by
    refine List.eq_nil_iff_forall_not_mem.mpr fun v hv => ?_
    obtain ⟨hwoken,u,hu,-⟩ := hg.tidy.summoned d v hv
    exact h.parking.not_woken (h.parking.queued u v hu).1 (h.parking.pending_of_idle hidle hu) hwoken
  have hle := hg.served (s.doing t).side ⟨w,hg.tidy.listed t w hpark hpending,hpending⟩
  rw [hnone] at hle
  have hmax := hg.tidy.bounded t w hpark
  cases hop : (s.doing t).side with
  | get =>
    rw [hop] at hle
    simpa [blocked,empty,avail] using hle
  | put =>
    rw [hop] at hle
    have hpos := hmax hop
    simp only [avail,List.length_nil] at hle
    simp only [blocked,full,Bool.and_eq_true,decide_eq_true_eq]
    omega

end
end QueueLoop

/-- In every run the completed operations are those of a sequential queue of the discipline, every item
that was got was put and is got once, and the queue holds no more than its size. If the events lose no
wake-up, no task is left waiting for what is there. -/
theorem queue_delivers_and_strands_nobody {kind : QueueKind} {maxsize : Int}
    (hord : kind = .priority → TotalPreorder less) {es : List (QueueEvent C α)} {s : QueueLoop C α}
    (hrun : (queueMachine C less).run (.start kind maxsize) es = some s) :
    (∃ contents, Replays less kind s.history contents ∧ kind.Holds less s.items contents) ∧
    (gotItems s.history).Subperm (putItems s.history) ∧ (0 < maxsize → s.items.length ≤ maxsize) ∧
    ((queueMachine C less).Along QueueLoop.Careful (.start kind maxsize) es → s.NoneStranded) := by
  have hinv : s.Inv less kind maxsize :=
    Lib.Machine.run_invariant (M := queueMachine C less) (I := QueueLoop.Inv less kind maxsize)
      (fun _ e _ hs h => QueueLoop.step_inv (e := e) hs h) hrun (QueueLoop.start_inv hord maxsize)
  obtain ⟨hkind,hmax⟩ := hinv.fixed
  obtain ⟨contents,hreplay,hholds⟩ := hinv.order
  rw [hkind] at hreplay hholds
  refine ⟨⟨contents,hreplay,hholds⟩,?_,fun hpos => ?_,fun hok hidle hopen t w hpark => ?_⟩
  · exact (List.sublist_append_left (gotItems s.history) contents).subperm.trans hreplay.subperm
  · rw [← hmax] at hpos ⊢
    exact hinv.bound hpos
  · have hgood := Lib.Machine.run_invariant_along (M := queueMachine C less)
      (I := fun s => s.Inv less kind maxsize ∧ (s.isShutdown = false → s.Good))
      (fun _ e _ hs hok h => ⟨QueueLoop.step_inv (e := e) hs h.1,fun hopen' =>
        have hopen := QueueLoop.step_isShutdown hs h.1 hopen'
        QueueLoop.step_good (e := e) hs hok h.1 hopen (h.2 hopen) hopen'⟩)
      hok hrun ⟨QueueLoop.start_inv hord maxsize,fun _ => QueueLoop.start_good kind maxsize⟩
    exact (hgood.2 hopen).none_stranded hinv hidle hpark

/-- A task waits for an item, another one puts it, and the woken getter gets it. -/
def getterWoken : List (QueueEvent Unit Nat) :=
  [.loop .createTask, .loop .createTask, .loop .tick, .await .get, .loop .tick, .await (.put 7),
    .loop (.yields (.ended (.result (.obj 0)))), .loop .tick]

theorem woken_getter_gets_item : ∃ s, (queueMachine Unit fun a b : Nat => decide (a < b)).run
      (.start .fifo 1) getterWoken = some s ∧
    gotItems s.history = [7] ∧ (gotItems s.history).Subperm (putItems s.history) ∧ s.NoneStranded := by
  obtain ⟨-,hsub, -,hwakes⟩ := @queue_delivers_and_strands_nobody Unit Nat
    (fun a b => decide (a < b)) .fifo 1 (fun h => by cases h) getterWoken _ rfl
  have hspares {p : Parking Unit} {e : Event Unit} (he : ∀ t, e ≠ .cancel t) : p.Spares e :=
    fun t _ heq => absurd heq (he t)
  refine ⟨_,rfl,rfl,hsub,hwakes (.cons rfl (hspares ?_) (.cons rfl (hspares ?_)
    (.cons rfl (hspares ?_) (.cons rfl ?_ (.cons rfl (hspares ?_) (.cons rfl ?_
    (.cons rfl (hspares ?_) (.cons rfl (hspares ?_) trivial))))))))⟩
  case refine_4 =>
    intro _ t ht
    cases ht
    rfl
  case refine_6 => exact fun hblocked => absurd hblocked (by decide)
  all_goals exact fun t he => by cases he

/-- Two tasks wait for an item. The one that a put has woken is cancelled before it runs: the other one
stays suspended while the item is there. -/
theorem getter_stranded : ∃ s, (queueMachine Unit fun a b : Nat => decide (a < b)).run (.start .fifo 0)
      [.loop .createTask, .loop .createTask, .loop .createTask, .loop .tick, .await .get, .loop .tick,
        .await .get, .loop .tick, .noWait (.put 7), .loop (.cancel 0),
        .loop (.yields (.ended (.result (.obj 0)))), .loop .tick,
        .loop (.yields (.ended (.exc asyncioCancelledError)))] = some s ∧
    s.loop.ready = [] ∧ s.isShutdown = false ∧ s.items = [7] ∧ s.parked 1 = some 4 ∧
    (s.doing 1).side = .get := by
  refine ⟨_,rfl,?_,?_,?_,?_,?_⟩ <;> decide

end Unagi.Asyncio
