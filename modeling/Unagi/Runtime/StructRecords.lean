import Unagi.Runtime.StructSound

/-! # Records of a format

A parsed format has the size of its cells, so packing and unpacking a record of that size are packing
and unpacking the cells. -/

namespace Unagi.Runtime

open Lib (overwrite)
open Objects (Bytes Halt)

/-! ## Sizes -/

theorem addItem_eq {native : Bool} {size size' : Nat} {it : StructItem}
    (h : addItem native size it = .ok size') :
    size' = itemEnd native (aligned native size it.code) it := by
  have hstart : size + (if native then it.code.alignPad size else 0) = aligned native size it.code := by
    cases native <;> rfl
  unfold addItem at h
  dsimp only at h
  rw [hstart] at h
  generalize (if native then it.code.alignPad size else 0) = pad at h
  split at h
  · cases h
  · split at h
    · cases h
    · exact (Except.ok.inj h).symm

theorem parseItems_size {native : Bool} {format : Bytes} {size : Nat} {count : Option Nat}
    {items : List StructItem} {size' : Nat}
    (h : parseItems native size count format = .ok (items, size')) :
    size' = size + cellsSize (cellsOf native items size) := by
  induction format generalizing size count items size' with
  | nil =>
    cases count with
    | none =>
      obtain ⟨rfl,rfl⟩ := Prod.mk.inj (Except.ok.inj h)
      rfl
    | some n => cases h
  | cons ch format ih =>
    rw [parseItems] at h
    split at h
    · exact ih h
    · split at h
      · obtain ⟨n,-,h⟩ := (Except.bind_isOk_iff ..).mp h
        exact ih h
      · split at h
        · cases h
        · rename_i code _
          split at h
          · cases h
          · obtain ⟨size₁,hadd,h⟩ := (Except.bind_isOk_iff ..).mp h
            obtain ⟨⟨items₁,size₂⟩,hrest,h⟩ := (Except.bind_isOk_iff ..).mp h
            cases h
            have hle := le_aligned native size code
            rw [cellsSize_cellsOf_cons,ih hrest,addItem_eq hadd]
            simp only [itemEnd]
            omega

theorem parseStructFormat_size {format : Bytes} {f : StructFormat}
    (h : parseStructFormat format = .ok f) : f.size = cellsSize (cellsOf f.native f.items 0) := by
  obtain ⟨⟨items,size⟩,hitems,h⟩ := (Except.bind_isOk_iff ..).mp h
  cases h
  rw [parseItems_size hitems,Nat.zero_add]

theorem length_takers_cells (native : Bool) (it : StructItem) :
    (takers (it.cells native)).length = it.valueCount := by
  have hrow : ∀ code width, (takers (List.replicate it.count (Cell.value code width))).length =
      it.count := by
    intro code width
    rw [takers,List.filter_replicate_of_pos rfl,List.length_replicate]
  obtain ⟨code,count⟩ := it
  cases code with
  | x | s | p => rfl
  | _ => exact hrow _ _

theorem length_takers_cellsOf (native : Bool) (items : List StructItem) (off : Nat) :
    (takers (cellsOf native items off)).length = (items.map (·.valueCount)).sum := by
  induction items generalizing off with
  | nil => rfl
  | cons it items ih =>
    have hsplit : ∀ cells cells', takers (cells ++ cells') = takers cells ++ takers cells' := by
      intro cells cells'
      exact List.filter_append ..
    rw [cellsOf,takers_pad,hsplit,List.length_append,length_takers_cells,ih,List.map_cons,
      List.sum_cons]

def cellStarts : Nat → List Cell → List (Nat × Cell)
  | _, [] => []
  | off, c :: cells => (off, c) :: cellStarts (off + c.size) cells

theorem cellStarts_append (off : Nat) (cells cells' : List Cell) :
    cellStarts off (cells ++ cells') =
      cellStarts off cells ++ cellStarts (off + cellsSize cells) cells' := by
  induction cells generalizing off with
  | nil => rfl
  | cons c cells ih =>
    rw [List.cons_append,cellStarts,cellStarts,ih,cellsSize_cons,Nat.add_assoc,List.cons_append]

/-- A value starts at a multiple of the alignment of its code. -/
def AlignedAt (p : Nat × Cell) : Prop :=
  ∀ code width, p.2 = .value code width → code.nativeAlign ∣ p.1

theorem nativeAlign_dvd_elemSize (code : StructCode) : code.nativeAlign ∣ code.elemSize true := by
  cases code <;> decide

theorem nativeAlign_dvd_aligned (off : Nat) (code : StructCode) :
    code.nativeAlign ∣ aligned true off code := by
  have hpos : 0 < code.nativeAlign := by cases code <;> decide
  rw [aligned,if_pos rfl,StructCode.alignPad]
  generalize code.nativeAlign = a at hpos ⊢
  split
  · have hone : a = 1 := by omega
    rw [hone]
    exact Nat.one_dvd _
  · have hdiv := Nat.div_add_mod off a
    have hlt := Nat.mod_lt off hpos
    split
    · refine ⟨off / a + 1,?_⟩
      rw [Nat.mul_add,Nat.mul_one]
      omega
    · rename_i hmod
      exact Nat.dvd_of_mod_eq_zero (not_not.mp hmod)

theorem alignedAt_replicate {code : StructCode} {off : Nat} (hoff : code.nativeAlign ∣ off)
    (count : Nat) :
    ∀ p ∈ cellStarts off (List.replicate count (.value code (code.elemSize true))), AlignedAt p := by
  induction count generalizing off with
  | zero => exact fun p hp => absurd hp List.not_mem_nil
  | succ count ih =>
    rw [List.replicate_succ,cellStarts,List.forall_mem_cons]
    constructor
    · intro code' width heq
      cases heq
      exact hoff
    · exact ih (Nat.dvd_add hoff (nativeAlign_dvd_elemSize code))

theorem alignedAt_cellsOf (items : List StructItem) (off : Nat) :
    ∀ p ∈ cellStarts off (cellsOf true items off), AlignedAt p := by
  induction items generalizing off with
  | nil => exact fun p hp => absurd hp List.not_mem_nil
  | cons it items ih =>
    have hle := le_aligned true off it.code
    have hstart : off + (aligned true off it.code - off) = aligned true off it.code := by omega
    rw [cellsOf,cellStarts,List.forall_mem_cons,cellStarts_append,List.forall_mem_append,Cell.size,
      hstart,cellsSize_cells]
    refine ⟨?_,?_,ih _⟩
    · intro code width heq
      cases heq
    · have hrow := alignedAt_replicate (nativeAlign_dvd_aligned off it.code) it.count
      obtain ⟨code,count⟩ := it
      cases code with
      | x | s | p =>
        intro p hp code width heq
        rw [List.mem_singleton.mp hp] at heq
        cases heq
      | _ => exact hrow

/-! ## Packing refines the cells -/

section
variable {packFloat : Bool → StructCode → StructValue → Except Halt Bytes} {big native : Bool} {β : Type}

/-- A way of packing writes given cells from an offset on, and returns what the values that are left
give. -/
def Packs (packFloat : Bool → StructCode → StructValue → Except Halt Bytes) (big : Bool)
    (cells : List Cell) (off : Nat) (result : List StructValue → β)
    (pack : List StructValue → Bytes → Except Halt β × Bytes) : Prop :=
  ∀ vals (buf : Bytes), off + cellsSize cells ≤ buf.length →
    match packCells packFloat big cells (buf.drop off) vals with
    | .ok (bs, rest) => pack vals buf = (.ok (result rest), overwrite buf off bs)
    | .error e => (pack vals buf).1 = .error e

def andPack (pack : List StructValue → Bytes → Except Halt (List StructValue) × Bytes)
    (later : List StructValue → Bytes → Except Halt β × Bytes) (vals : List StructValue) (buf : Bytes) :
    Except Halt β × Bytes :=
  match pack vals buf with
  | (.error e, buf) => (.error e, buf)
  | (.ok vals, buf) => later vals buf
def writeCell (packFloat : Bool → StructCode → StructValue → Except Halt Bytes) (big : Bool) (c : Cell)
    (off : Nat) (vals : List StructValue) (buf : Bytes) : Except Halt (List StructValue) × Bytes :=
  match packCell packFloat big c ((buf.drop off).take c.size) vals with
  | .error e => (.error e, buf)
  | .ok (bs, vals) => (.ok vals, overwrite buf off bs)

theorem packs_writeCell (c : Cell) (off : Nat) :
    Packs packFloat big [c] off id (writeCell packFloat big c off) := by
  intro vals buf _
  rw [packCells,writeCell]
  cases packCell packFloat big c ((buf.drop off).take c.size) vals with
  | error e => rfl
  | ok p => simp [packCells,bind,Except.bind,pure,Except.pure]

theorem Packs.andPack {cells cells' : List Cell} {off : Nat} {result : List StructValue → β}
    {pack : List StructValue → Bytes → Except Halt (List StructValue) × Bytes}
    {later : List StructValue → Bytes → Except Halt β × Bytes} (hplain : ∀ c ∈ cells, c.Plain)
    (hpack : Packs packFloat big cells off id pack)
    (hlater : Packs packFloat big cells' (off + cellsSize cells) result later) :
    Packs packFloat big (cells ++ cells') off result (andPack pack later) := by
  intro vals buf hfit
  rw [cellsSize_append] at hfit
  have hfirst := hpack vals buf (by omega)
  rw [packCells_append,List.drop_drop,Runtime.andPack]
  cases hcells : packCells packFloat big cells (buf.drop off) vals with
  | error e =>
    rw [hcells] at hfirst
    generalize pack vals buf = r at hfirst ⊢
    obtain ⟨r,buf'⟩ := r
    cases hfirst
    rfl
  | ok p =>
    obtain ⟨bs,rest⟩ := p
    rw [hcells] at hfirst
    have hlen := (packCells_ok hplain (by rw [List.length_drop]; omega) hcells).1
    -- the bytes behind the first cells are still the old ones
    have hrest := hlater rest (overwrite buf off bs) (by rw [Lib.length_overwrite] <;> omega)
    rw [← hlen,Lib.drop_overwrite (by omega),hlen] at hrest
    simp only [hfirst,id,bind,Except.bind]
    cases hcells' : packCells packFloat big cells' (buf.drop (off + cellsSize cells)) rest with
    | error e =>
      rw [hcells'] at hrest
      exact hrest
    | ok q =>
      rw [hcells'] at hrest
      simp only [pure,Except.pure]
      rw [hrest,← hlen,Lib.overwrite_append (by omega)]

theorem packElems_packs {code : StructCode} (hcode : code.isFloat = false) (count off : Nat) :
    Packs packFloat big (List.replicate count (.value code (code.elemSize native))) off id
      (packElems packFloat big code (code.elemSize native) count off) := by
  induction count generalizing off with
  | zero =>
    intro vals buf _
    change _ = _
    rw [Lib.overwrite_nil]
    rfl
  | succ count ih =>
    have hfirst : packElems packFloat big code (code.elemSize native) (count + 1) off =
        andPack (writeCell packFloat big (.value code (code.elemSize native)) off)
          (packElems packFloat big code (code.elemSize native) count (off + code.elemSize native)) := by
      funext vals buf
      cases vals with
      | nil => rfl
      | cons v vals =>
        rw [packElems,andPack,writeCell,packCell]
        cases packOne packFloat big code (code.elemSize native) v <;> rfl
    have hplain : ∀ c ∈ [Cell.value code (code.elemSize native)], c.Plain := by
      intro c hc code' width heq
      rw [List.mem_singleton.mp hc] at heq
      cases heq
      exact ⟨hcode,native,rfl⟩
    rw [hfirst]
    exact (packs_writeCell _ off).andPack hplain (ih _)

theorem packItem_packs {it : StructItem} (hcode : it.code.isFloat = false) (off : Nat) :
    Packs packFloat big (it.cells native) off id (packItem packFloat big native it off) := by
  obtain ⟨code,count⟩ := it
  have hfield : ∀ code pascal, code = .s ∧ pascal = false ∨ code = .p ∧ pascal = true →
      Packs packFloat big [.field count pascal] off id
        (packItem packFloat big native ⟨code,count⟩ off) := by
    intro code pascal hcode
    convert @packs_writeCell packFloat big (.field count pascal) off using 1
    funext vals buf
    rcases hcode with ⟨rfl,rfl⟩ | ⟨rfl,rfl⟩
    all_goals
      cases vals with
      | nil => rfl
      | cons v vals =>
        rw [writeCell,packCell,Cell.size,packItem]
        dsimp only
        cases packBytesField ((buf.drop off).take count) v _ <;> rfl
  cases code with
  | x => exact packs_writeCell (.pad count) off
  | s => exact hfield .s false (.inl ⟨rfl,rfl⟩)
  | p => exact hfield .p true (.inr ⟨rfl,rfl⟩)
  | _ => exact packElems_packs hcode count off

theorem packItems_packs {items : List StructItem} (hitems : ∀ it ∈ items, it.code.isFloat = false)
    (off : Nat) :
    Packs packFloat big (cellsOf native items off) off (fun _ => ())
      (packItems packFloat big native items off) := by
  induction items generalizing off with
  | nil =>
    intro vals buf _
    change _ = _
    rw [Lib.overwrite_nil]
    rfl
  | cons it items ih =>
    rw [List.forall_mem_cons] at hitems
    have hstart : off + cellsSize [.pad (aligned native off it.code - off)] = aligned native off it.code :=
      Nat.add_sub_cancel' (le_aligned native off it.code)
    have hfirst : packItems packFloat big native (it :: items) off =
        andPack (writeCell packFloat big (.pad (aligned native off it.code - off)) off)
          (andPack (packItem packFloat big native it (aligned native off it.code))
            (packItems packFloat big native items
              (itemEnd native (aligned native off it.code) it))) := by
      funext vals buf
      rw [packItems]
      rfl
    have hrest := ih hitems.2 (itemEnd native (aligned native off it.code) it)
    rw [itemEnd,← cellsSize_cells] at hrest
    have hlater := (packItem_packs hitems.1 _).andPack (plain_cells hitems.1) hrest
    rw [cellsSize_cells,← itemEnd] at hlater
    rw [hfirst]
    exact (packs_writeCell _ off).andPack (by simp [Cell.Plain]) (by rwa [hstart])

end

/-! ## Packing and unpacking a format -/

namespace StructFormat

def cells (f : StructFormat) : List Cell := cellsOf f.native f.items 0
def Accepts (f : StructFormat) (vals : List StructValue) : Prop :=
  List.Forall₂ Cell.Accepts (takers f.cells) vals
def stored (f : StructFormat) (vals : List StructValue) : List StructValue :=
  List.zipWith Cell.stored (takers f.cells) vals

/-- All padding of a record: alignment, `x` bytes and what values leave of their string fields. -/
def padding (f : StructFormat) (vals : List StructValue) : List Bool := padMask true true f.cells vals

/-- What values leave of their string fields. -/
def fills (f : StructFormat) (vals : List StructValue) : List Bool := padMask false true f.cells vals

def gaps (f : StructFormat) (vals : List StructValue) : List Bool := padMask true false f.cells vals

end StructFormat

section
variable {packFloat : Bool → StructCode → StructValue → Except Halt Bytes}
  {unpackFloat : Bool → StructCode → Bytes → StructValue} {f : StructFormat}

theorem length_takers (f : StructFormat) : (takers f.cells).length = f.valueCount :=
  length_takers_cellsOf ..
theorem length_of_accepts {vals : List StructValue} (h : f.Accepts vals) :
    vals.length = f.valueCount := by
  rw [← length_takers]
  exact h.length_eq.symm

theorem packItems_accepts (hsize : f.size = cellsSize f.cells)
    (hfloat : ∀ it ∈ f.items, it.code.isFloat = false) {vals : List StructValue} (h : f.Accepts vals)
    {old : Bytes} (hold : old.length = f.size) :
    ∃ bs, packItems packFloat f.big f.native f.items 0 vals old = (.ok (), bs) ∧
      Packed unpackFloat f.big f.cells vals old bs := by
  obtain ⟨bs,hbs,hpacked⟩ := @packCells_accepts packFloat unpackFloat f.big f.cells
    (plain_cellsOf hfloat 0) vals h old (by omega)
  have hwrites := @packItems_packs packFloat f.big f.native f.items hfloat 0 vals old
    (by rw [hold,hsize,Nat.zero_add]; exact Nat.le_refl _)
  have hcells : packCells packFloat f.big (cellsOf f.native f.items 0) (old.drop 0) vals =
      .ok (bs, []) := hbs
  rw [hcells] at hwrites
  -- the record is the whole of what it is written over
  have hwhole : overwrite old 0 bs = bs := by
    have hdrop : old.drop (0 + bs.length) = [] := by
      rw [List.drop_eq_nil_iff,hold,hsize,hpacked.length,Nat.zero_add]
    rw [overwrite,hdrop,List.append_nil,List.take_zero,List.nil_append]
  refine ⟨bs,?_,hpacked⟩
  rw [← hwhole]
  exact hwrites

theorem accepts_of_packItems (hsize : f.size = cellsSize f.cells)
    (hfloat : ∀ it ∈ f.items, it.code.isFloat = false) {vals : List StructValue}
    (hcount : vals.length = f.valueCount) {old : Bytes} (hold : old.length = f.size)
    (h : (packItems packFloat f.big f.native f.items 0 vals old).1 = .ok ()) : f.Accepts vals := by
  have hwrites := @packItems_packs packFloat f.big f.native f.items hfloat 0 vals old
    (by rw [hold,hsize,Nat.zero_add]; exact Nat.le_refl _)
  cases hcells : packCells packFloat f.big (cellsOf f.native f.items 0) (old.drop 0) vals with
  | error e =>
    rw [hcells] at hwrites
    rw [h] at hwrites
    cases hwrites
  | ok p =>
    obtain ⟨bs,rest⟩ := p
    obtain ⟨-,taken,rfl,haccepts⟩ := packCells_ok (plain_cellsOf hfloat 0)
      (by rw [List.drop_zero,hold,hsize]; rfl) hcells
    -- the cells take as many values as there are
    have hlen : taken.length = (taken ++ rest).length := by
      rw [hcount,← length_takers]
      exact haccepts.length_eq.symm
    rw [List.length_append,Nat.left_eq_add] at hlen
    rw [List.eq_nil_of_length_eq_zero hlen,List.append_nil]
    exact haccepts

theorem structPackInto_eq {dst : Bytes} {o : Nat} {off : Int} (hfit : o + f.size ≤ dst.length)
    (hoff : off = o ∨ o < dst.length ∧ off = o - dst.length) {vals : List StructValue}
    (hcount : vals.length = f.valueCount) :
    structPackInto packFloat f dst off vals =
      ((packItems packFloat f.big f.native f.items 0 vals ((dst.drop o).take f.size)).1,
        overwrite dst o
          (packItems packFloat f.big f.native f.items 0 vals ((dst.drop o).take f.size)).2) := by
  have hspace : ¬ (off < 0 ∧ -f.size < off) := by omega
  have hrange : ¬ (off < 0 ∧ off < -dst.length) := by omega
  have hstart : (if off < 0 then off + dst.length else off) = (o : Int) := by
    split <;> omega
  have hroom : ¬ ((dst.length : Int) - o < f.size) := by omega
  unfold structPackInto
  rw [if_neg (not_not.mpr hcount),if_neg hspace,if_neg hrange]
  dsimp only
  rw [hstart,if_neg hroom,Int.toNat_natCast]

theorem structPack_accepts (hsize : f.size = cellsSize f.cells)
    (hfloat : ∀ it ∈ f.items, it.code.isFloat = false) {vals : List StructValue}
    (h : f.Accepts vals) :
    ∃ bs, structPack packFloat f vals = .ok bs ∧
      Packed unpackFloat f.big f.cells vals (List.replicate f.size 0) bs := by
  obtain ⟨bs,hbs,hpacked⟩ := @packItems_accepts packFloat unpackFloat f hsize hfloat vals h
    (List.replicate f.size 0) List.length_replicate
  refine ⟨bs,?_,hpacked⟩
  rw [structPack,if_neg (not_not.mpr (length_of_accepts h)),hbs]

theorem accepts_of_structPack (hsize : f.size = cellsSize f.cells)
    (hfloat : ∀ it ∈ f.items, it.code.isFloat = false) {vals : List StructValue} {bs : Bytes}
    (h : structPack packFloat f vals = .ok bs) : f.Accepts vals := by
  unfold structPack at h
  split at h
  · cases h
  · rename_i hcount
    apply accepts_of_packItems hsize hfloat (not_not.mp hcount)
      (List.length_replicate : (List.replicate f.size (0 : UInt8)).length = f.size)
    split at h
    · cases h
    · rename_i hpack
      rw [hpack]

end

/-- Packing and unpacking a format without float codes are inverse and agree on the layout. A format
takes exactly the values that fit its cells; the record has every value aligned and all padding zero.
Packed into a buffer its padding is zero just if the buffer was zero behind the strings. -/
theorem struct_pack_unpack_inverse
    (packFloat : Bool → StructCode → StructValue → Except Halt Bytes)
    (unpackFloat : Bool → StructCode → Bytes → StructValue) {format : Bytes} {f : StructFormat}
    (hparse : parseStructFormat format = .ok f) (hfloat : ∀ it ∈ f.items, it.code.isFloat = false)
    (vals : List StructValue) :
    ((∃ bs, structPack packFloat f vals = .ok bs) ↔ f.Accepts vals) ∧
      (f.native = true → ∀ p ∈ cellStarts 0 f.cells, AlignedAt p) ∧
      (∀ bs, structPack packFloat f vals = .ok bs →
        bs.length = f.size ∧ structUnpack unpackFloat f bs = .ok (f.stored vals) ∧
          Zeroed (f.padding vals) bs) ∧
      (f.Accepts vals → ∀ (dst : Bytes) (o : Nat) (off : Int), o + f.size ≤ dst.length →
        (off = o ∨ o < dst.length ∧ off = o - dst.length) →
        ∃ bs, bs.length = f.size ∧
          structPackInto packFloat f dst off vals = (.ok (), overwrite dst o bs) ∧
          Zeroed (f.gaps vals) bs ∧
          (Zeroed (f.padding vals) bs ↔ Zeroed (f.fills vals) ((dst.drop o).take f.size))) := by
  have hsize : f.size = cellsSize f.cells := parseStructFormat_size hparse
  refine ⟨⟨?_,?_⟩,?_,?_,?_⟩
  · intro h
    obtain ⟨bs,hbs⟩ := h
    exact accepts_of_structPack hsize hfloat hbs
  · intro h
    obtain ⟨bs,hbs, -⟩ := @structPack_accepts packFloat unpackFloat f hsize hfloat vals h
    exact ⟨bs,hbs⟩
  · intro hnative
    have haligned := alignedAt_cellsOf f.items 0
    rw [← hnative] at haligned
    exact haligned
  · intro bs hbs
    have h := accepts_of_structPack hsize hfloat hbs
    obtain ⟨bs',hbs',hpacked⟩ := @structPack_accepts packFloat unpackFloat f hsize hfloat vals h
    obtain rfl := Except.ok.inj (hbs.symm.trans hbs')
    have hlen : bs.length = f.size := by rw [hpacked.length,hsize]
    -- a new record starts as zeros
    have hfills : Zeroed (f.fills vals) (List.replicate f.size 0) := zeroed_zeros _ _
    refine ⟨hlen,?_,hpacked.pads.mpr hfills⟩
    rw [structUnpack,if_neg (not_not.mpr hlen),unpackItems_eq,List.drop_zero]
    exact congrArg Except.ok (hpacked.values hfills)
  · intro h dst o off hfit hoff
    have hold : ((dst.drop o).take f.size).length = f.size := by
      rw [List.length_take,List.length_drop]
      omega
    obtain ⟨bs,hbs,hpacked⟩ := @packItems_accepts packFloat unpackFloat f hsize hfloat vals h _ hold
    refine ⟨bs,by rw [hpacked.length,hsize],?_,hpacked.gaps,hpacked.pads⟩
    rw [structPackInto_eq hfit hoff (length_of_accepts h),hbs]

/-- `'bi'` with native alignment: three gap bytes before the int, also in a buffer of `\xff` bytes that
is packed from its eighth byte from the end on. -/
theorem aligned_int_reads_back :
    let f : StructFormat := ⟨false,true,[⟨.b,1⟩,⟨.i,1⟩],8⟩
    parseStructFormat [98,105] = .ok f ∧
      structUnpack (fun _ _ _ => .int 0) f [255,0,0,0,2,1,0,0] =
        .ok [.int (-1),.int 258] ∧
      ∃ bs, bs.length = 8 ∧
        structPackInto (fun _ _ _ => .error .panic) f (List.replicate 10 255) (-8)
          [.int (-1),.int 258] = (.ok (), overwrite (List.replicate 10 255) 2 bs) ∧
        Zeroed (f.gaps [.int (-1),.int 258]) bs := by
  intro f
  have hpack : structPack (fun _ _ _ => .error .panic) f [.int (-1),.int 258] =
      .ok [255,0,0,0,2,1,0,0] := by decide +kernel
  obtain ⟨haccepts,-,hread,hinto⟩ := @struct_pack_unpack_inverse (fun _ _ _ => .error .panic)
    (fun _ _ _ => .int 0) [98,105] f rfl (by decide) [.int (-1),.int 258]
  obtain ⟨bs,hlen,hbs,hgaps,-⟩ := hinto (haccepts.mp ⟨_,hpack⟩) (List.replicate 10 255) 2 (-8)
    (by decide) (by decide)
  exact ⟨rfl,(hread _ hpack).2.1,bs,hlen,hbs,hgaps⟩

/-- `'4s'` packed into a buffer of `\xff` bytes leaves them behind the string. -/
theorem stale_bytes_behind_string :
    parseStructFormat [52, 115] = .ok ⟨false, true, [⟨.s, 4⟩], 4⟩ ∧
      structPack (fun _ _ _ => .error .panic) ⟨false, true, [⟨.s, 4⟩], 4⟩ [.bytes [97]] =
        .ok [97, 0, 0, 0] ∧
      structPackInto (fun _ _ _ => .error .panic) ⟨false, true, [⟨.s, 4⟩], 4⟩ [255, 255, 255, 255] 0
        [.bytes [97]] = (.ok (), [97, 255, 255, 255]) ∧
      ¬ Zeroed (StructFormat.padding ⟨false, true, [⟨.s, 4⟩], 4⟩ [.bytes [97]]) [97, 255, 255, 255] :=
  ⟨rfl,rfl,rfl,by decide +kernel⟩

end Unagi.Runtime
