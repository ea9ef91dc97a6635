import Mathlib.Tactic.FinCases
import Unagi.Runtime.Iso2022

/-! # ISO-2022 texts read back

What the encoder writes for a code point takes the decoder from the mode before it to the mode behind it
and back to the code point, so the two stay in step over a whole text. -/

namespace Unagi.Runtime

open Lib (DecodeStep decodeRun Reads)
open Objects (Bytes)

/-- An escape sequence that designates a `G0` set, without its `ESC`. -/
structure IsDesignation (esc : Bytes) : Prop where
  header : (esc.head?.any fun c => isEscHeader c && c ≠ 0x2E) = true
  body : ∀ b ∈ esc.dropLast, iso2022IsEscEnd b = false
  last : esc.getLast?.any iso2022IsEscEnd = true
  short : esc.length < iso2022MaxEscSeq
  printable : ∀ b ∈ esc, 0x20 ≤ b

/-- The tables of a character set lead back from what they encode, through bytes of the `GL` area; the
codes of pairs are none of single characters. -/
structure Iso2022Charset.Inverse (cs : Iso2022Charset) : Prop where
  scalar : ∀ {r v}, cs.encode r = some v → isScalar r = true
  decode : ∀ {r v}, cs.encode r = some v → cs.decode v = some r
  bytes : ∀ {r v}, cs.encode r = some v → isGL v.toUInt8 = true
  lead : ∀ {r v}, cs.encode r = some v →
    if cs.two then isGL (v >>> 8).toUInt8 = true else v.toUInt8.toUInt16 = v
  two : ∀ {p v}, cs.encode2 p = some v → cs.two = true
  scalar2 : ∀ {p v}, cs.encode2 p = some v → isScalar p.1 = true ∧ isScalar p.2 = true
  decode2 : ∀ {p v}, cs.encode2 p = some v → cs.decode2 v = some p ∧ cs.decode v = none
  bytes2 : ∀ {p v}, cs.encode2 p = some v → isGL (v >>> 8).toUInt8 = true ∧ isGL v.toUInt8 = true

/-- The decoder of a configuration knows the designations that its encoder writes. -/
structure Iso2022Config.Registered (cfg : Iso2022Config) : Prop where
  ascii : cfg.desig.lookup escASCII = some iso2022ModeASCII
  roman : cfg.hasRoman = true → cfg.desig.lookup escRoman = some iso2022ModeRoman
  esc : ∀ cs ∈ cfg.encodeOrder, IsDesignation cs.esc
  desig : ∀ cs ∈ cfg.encodeOrder, cfg.desig.lookup cs.esc = some cs.code
  byCode : ∀ cs ∈ cfg.encodeOrder, cfg.byCode.lookup cs.code = some cs
  code : ∀ cs ∈ cfg.encodeOrder, cs.code ≠ iso2022ModeASCII ∧ cs.code ≠ iso2022ModeRoman

variable {esc : Bytes}

theorem scanEsc_append {n : Nat} (hbody : ∀ b ∈ esc.dropLast, iso2022IsEscEnd b = false)
    (hlast : esc.getLast?.any iso2022IsEscEnd = true) (hshort : esc.length ≤ n) (tail : Bytes) :
    scanEsc n (esc ++ tail) = .found esc.length := by
  induction esc generalizing n with
  | nil => cases hlast
  | cons c esc ih =>
    cases n with
    | zero => cases hshort
    | succ n =>
      cases esc with
      | nil =>
        have hend : iso2022IsEscEnd c = true := hlast
        rw [List.singleton_append,scanEsc,if_pos hend]
        rfl
      | cons c' esc =>
        rw [List.dropLast_cons_cons,List.forall_mem_cons] at hbody
        rw [List.getLast?_cons_cons] at hlast
        have hrest := ih hbody.2 hlast (Nat.le_of_succ_le_succ hshort)
        rw [List.cons_append,scanEsc,if_neg (by rw [hbody.1]; decide),hrest]
        rfl

private theorem isDesignation_escASCII : IsDesignation escASCII := by
  constructor <;> decide +kernel
private theorem isDesignation_escRoman : IsDesignation escRoman := by
  constructor <;> decide +kernel

section
variable {cfg : Iso2022Config} {mode : Iso2022Mode} {esc : Bytes} {code : UInt8}

private theorem reads_escape (hesc : IsDesignation esc) (hcode : cfg.desig.lookup esc = some code) :
    Reads (iso2022DecodeStep cfg) mode (0x1b :: esc) [] { mode with g0 := code } := by
  apply Reads.of_step
  intro tail
  have hscan : scanEsc (iso2022MaxEscSeq - 1) (esc ++ tail) = .found esc.length :=
    scanEsc_append hesc.body hesc.last (Nat.le_pred_of_lt hesc.short) tail
  have hheader := hesc.header
  cases esc with
  | nil => cases hheader
  | cons c esc =>
    have hc : (isEscHeader c && decide (c ≠ 0x2E)) = true := hheader
    rw [Bool.and_eq_true,decide_eq_true_eq] at hc
    -- no header is the N of a single shift
    have hshift : (!cfg.g2desig.isEmpty && decide (c = 0x4E)) = false := by
      have hne : c ≠ 0x4E := by
        intro heq
        rw [heq] at hc
        exact absurd hc.1 (by decide)
      rw [decide_eq_false hne,Bool.and_false]
    rw [List.cons_append] at hscan
    rw [iso2022DecodeStep,if_pos rfl,List.cons_append,iso2022EscStep.eq_def]
    dsimp only
    rw [hshift,if_neg Bool.false_ne_true,if_pos hc.1,hscan]
    dsimp only
    rw [← List.cons_append,List.take_left,redesignate,if_neg hc.2,hcode]
    rfl

theorem reads_designate (hesc : IsDesignation esc) (hcode : cfg.desig.lookup esc = some code) :
    Reads (iso2022DecodeStep cfg) mode (designate mode.g0 code esc) [] { mode with g0 := code } := by
  unfold designate
  by_cases hg0 : mode.g0 = code
  · rw [if_neg (not_not.mpr hg0),← hg0]
    exact Reads.refl mode
  · rw [if_pos hg0]
    exact reads_escape hesc hcode

end

/-! ## Characters -/

private theorem toNat_isGL {c : UInt8} (h : isGL c = true) : 0x21 ≤ c.toNat ∧ c.toNat ≤ 0x7e := by
  rw [isGL,Bool.and_eq_true,decide_eq_true_eq,decide_eq_true_eq] at h
  exact ⟨UInt8.le_iff_toNat_le.mp h.1,UInt8.le_iff_toNat_le.mp h.2⟩

private theorem pairKey_pairBytes (v : UInt16) : pairKey (v >>> 8).toUInt8 v.toUInt8 = v := by
  have hv : v.toNat < 65536 := v.toNat_lt
  have hlow : v.toNat % 256 < 2 ^ 8 := Nat.mod_lt _ (by decide)
  apply UInt16.toNat_inj.mp
  rw [pairKey,UInt16.toNat_or,UInt16.toNat_shiftLeft,UInt8.toNat_toUInt16,UInt8.toNat_toUInt16,
    UInt16.toNat_toUInt8,UInt16.toNat_toUInt8,UInt16.toNat_shiftRight]
  have height : (8 : UInt16).toNat % 16 = 8 := by decide
  rw [height,Nat.shiftRight_eq_div_pow]
  have hhigh : v.toNat / 2 ^ 8 % 2 ^ 8 = v.toNat / 256 := by omega
  have hshift : (v.toNat / 256) <<< 8 % 2 ^ 16 = (v.toNat / 256) <<< 8 := by
    rw [Nat.shiftLeft_eq]
    omega
  rw [hhigh,hshift,← Nat.shiftLeft_add_eq_or_of_lt hlow,Nat.shiftLeft_eq]
  omega

section
variable {cfg : Iso2022Config} {mode : Iso2022Mode}

variable {r : Rune} {v : UInt16}

private theorem reads_ascii (hmode : mode.g0 = iso2022ModeASCII) (hr : r < 0x80) (hesc : r ≠ 0x1b) :
    Reads (iso2022DecodeStep cfg) mode [r.toUInt8] [r] mode := by
  apply Reads.of_step
  intro tail
  have hnat : r.toUInt8.toNat = r := by
    rw [Nat.toUInt8,UInt8.toNat_ofNat']
    exact Nat.mod_eq_of_lt (Nat.lt_of_lt_of_le hr (by decide))
  have hne : r.toUInt8 ≠ 0x1b := by
    intro heq
    rw [heq] at hnat
    exact hesc hnat.symm
  have hlow : ¬ 0x80 ≤ r.toUInt8 := by
    rw [UInt8.le_iff_toNat_le,hnat]
    exact Nat.not_le.mpr hr
  rw [iso2022DecodeStep,if_neg hne]
  by_cases hcontrol : r.toUInt8 < 0x21
  · rw [if_pos hcontrol,hnat]
    rfl
  · rw [if_neg hcontrol,if_neg hlow,if_pos hmode,hnat]
    rfl

private theorem reads_roman (hmode : mode.g0 = iso2022ModeRoman)
    (hr : r = iso2022Yen ∨ r = iso2022Overline) :
    Reads (iso2022DecodeStep cfg) mode [if r = iso2022Yen then 0x5C else 0x7E] [r] mode := by
  have hascii : mode.g0 ≠ iso2022ModeASCII := by
    rw [hmode]
    decide
  apply Reads.of_step
  intro tail
  rcases hr with rfl | rfl
  · rw [if_pos rfl,iso2022DecodeStep,if_neg (by decide),if_neg (by decide),if_neg (by decide),
      if_neg hascii,if_pos hmode]
    rfl
  · rw [if_neg (by decide),iso2022DecodeStep,if_neg (by decide),if_neg (by decide),if_neg (by decide),
      if_neg hascii,if_pos hmode]
    rfl

variable {cs : Iso2022Charset}

theorem decodeStep_designated {c : UInt8} (hc : isGL c = true) (hascii : mode.g0 ≠ iso2022ModeASCII)
    (hroman : mode.g0 ≠ iso2022ModeRoman) (hcs : cfg.byCode.lookup mode.g0 = some cs)
    (rest : Bytes) :
    iso2022DecodeStep cfg mode c rest =
      if !cs.two then
        match cs.decode c.toUInt16 with
        | some r => .emit [r] 0 mode
        | none => .illegal 0 illegalReason
      else
        match rest with
        | [] => .incomplete incompleteReason
        | c2 :: _ =>
          match pairRunes (some cs) c c2 with
          | some out => .emit out 1 mode
          | none => .illegal 1 illegalReason := by
  have hrange := toNat_isGL hc
  have hesc : c ≠ 0x1b := by
    intro heq
    rw [heq] at hc
    exact absurd hc (by decide)
  have hcontrol : ¬ c < 0x21 := by
    rw [UInt8.lt_iff_toNat_lt]
    exact Nat.not_lt.mpr hrange.1
  have hhigh : ¬ 0x80 ≤ c := by
    rw [UInt8.le_iff_toNat_le]
    exact Nat.not_le.mpr (Nat.lt_of_le_of_lt hrange.2 (by decide))
  rw [iso2022DecodeStep,if_neg hesc,if_neg hcontrol,if_neg hhigh,if_neg hascii,if_neg hroman,hcs]
  rfl

private theorem reads_pairBytes (hcs : cfg.byCode.lookup mode.g0 = some cs)
    (hascii : mode.g0 ≠ iso2022ModeASCII) (hroman : mode.g0 ≠ iso2022ModeRoman)
    (htwo : cs.two = true) (hlead : isGL (v >>> 8).toUInt8 = true) {out : List Rune}
    (hout : pairRunes (some cs) (v >>> 8).toUInt8 v.toUInt8 = some out) :
    Reads (iso2022DecodeStep cfg) mode (pairBytes v) out mode := by
  apply Reads.of_step
  intro tail
  rw [decodeStep_designated hlead hascii hroman hcs,htwo,Bool.not_true,if_neg Bool.false_ne_true,
    List.singleton_append]
  dsimp only
  rw [hout]
  rfl

private theorem pairRunes_of_isGL (hlead : isGL (v >>> 8).toUInt8 = true)
    (htrail : isGL v.toUInt8 = true) :
    pairRunes (some cs) (v >>> 8).toUInt8 v.toUInt8 =
      match cs.decode v with
      | some r => some [r]
      | none => (cs.decode2 v).map fun p => [p.1, p.2] := by
  cases hdecode : cs.decode v <;>
    simp only [pairRunes,hlead,htrail,Bool.and_self,if_true,pairKey_pairBytes,hdecode]

private theorem reads_encode (hinv : cs.Inverse) (hcs : cfg.byCode.lookup mode.g0 = some cs)
    (hascii : mode.g0 ≠ iso2022ModeASCII) (hroman : mode.g0 ≠ iso2022ModeRoman)
    (hv : cs.encode r = some v) :
    Reads (iso2022DecodeStep cfg) mode (if cs.two then pairBytes v else [v.toUInt8]) [r] mode := by
  have hlead := hinv.lead hv
  by_cases htwo : cs.two = true
  · rw [if_pos htwo] at hlead ⊢
    apply reads_pairBytes hcs hascii hroman htwo hlead
    rw [pairRunes_of_isGL hlead (hinv.bytes hv),hinv.decode hv]
  · rw [if_neg htwo] at hlead ⊢
    apply Reads.of_step
    intro tail
    rw [decodeStep_designated (hinv.bytes hv) hascii hroman hcs,Bool.eq_false_iff.mpr htwo,
      Bool.not_false,if_pos rfl,hlead,hinv.decode hv]
    rfl

private theorem reads_encode2 (hinv : cs.Inverse) (hcs : cfg.byCode.lookup mode.g0 = some cs)
    (hascii : mode.g0 ≠ iso2022ModeASCII) (hroman : mode.g0 ≠ iso2022ModeRoman) {r' : Rune}
    (hv : cs.encode2 (r, r') = some v) :
    Reads (iso2022DecodeStep cfg) mode (pairBytes v) [r, r'] mode := by
  obtain ⟨hlead,htrail⟩ := hinv.bytes2 hv
  obtain ⟨hpair,hsingle⟩ := hinv.decode2 hv
  apply reads_pairBytes hcs hascii hroman (hinv.two hv) hlead
  rw [pairRunes_of_isGL hlead htrail,hsingle,hpair]
  rfl

end

/-! ## Texts -/

def isLineEnd (b : UInt8) : Bool := b = 0x0A || b = 0x0D

/-- Bytes that the decoder reads as a text, with every line end in the ASCII set. -/
structure ReadsBack (cfg : Iso2022Config) (mode : Iso2022Mode) (out : Bytes) (runes : List Rune)
    (mode' : Iso2022Mode) : Prop where
  reads : Reads (iso2022DecodeStep cfg) mode out runes mode'
  scalar : ∀ r ∈ runes, isScalar r = true
  g2 : mode'.g2 = mode.g2
  lineEnds : ∀ pre b post, out = pre ++ b :: post → isLineEnd b = true →
    ∃ runes', Reads (iso2022DecodeStep cfg) mode pre runes' ⟨iso2022ModeASCII, mode.g2⟩

namespace ReadsBack
variable {cfg : Iso2022Config} {mode mode' mode'' : Iso2022Mode} {out out' : Bytes}
  {runes runes' : List Rune}

private theorem of_not_isLineEnd (h : Reads (iso2022DecodeStep cfg) mode out runes mode')
    (hscalar : ∀ r ∈ runes, isScalar r = true) (hg2 : mode'.g2 = mode.g2)
    (hout : ∀ b ∈ out, isLineEnd b = false) : ReadsBack cfg mode out runes mode' := by
  refine ⟨h,hscalar,hg2,?_⟩
  intro pre b post heq hend
  have hb : b ∈ out := by
    rw [heq]
    exact List.mem_append_right _ List.mem_cons_self
  rw [hout b hb] at hend
  cases hend

theorem trans (h : ReadsBack cfg mode out runes mode') (h' : ReadsBack cfg mode' out' runes' mode'') :
    ReadsBack cfg mode (out ++ out') (runes ++ runes') mode'' := by
  refine ⟨h.reads.trans h'.reads,?_,h'.g2.trans h.g2,?_⟩
  · rw [List.forall_mem_append]
    exact ⟨h.scalar,h'.scalar⟩
  · intro pre b post heq hend
    -- the line end is in the first part or in the second
    obtain ⟨part,hout,hpost⟩ | ⟨part,hpre,hout'⟩ := List.append_eq_append_iff.mp heq
    · obtain ⟨runes'',hreads⟩ := h'.lineEnds part b post hpost hend
      rw [h.g2] at hreads
      exact ⟨runes ++ runes'',by rw [hout]; exact h.reads.trans hreads⟩
    · cases part with
      | nil =>
        rw [List.append_nil] at hpre
        obtain ⟨runes'',hreads⟩ := h'.lineEnds [] b post hout'.symm hend
        rw [h.g2] at hreads
        refine ⟨runes ++ runes'',?_⟩
        have hboth := h.reads.trans hreads
        rwa [List.append_nil,hpre] at hboth
      | cons b' part =>
        obtain ⟨rfl,-⟩ := List.cons.inj hout'
        exact h.lineEnds pre b part hpre hend

end ReadsBack

section
variable {cfg : Iso2022Config} {mode : Iso2022Mode}

private theorem not_isLineEnd_of_le {b : UInt8} (h : 0x20 ≤ b) : isLineEnd b = false := by
  have hlow := UInt8.le_iff_toNat_le.mp h
  rw [isLineEnd,Bool.or_eq_false_iff,decide_eq_false_iff_not,decide_eq_false_iff_not]
  constructor
  · intro heq
    rw [heq] at hlow
    exact absurd hlow (by decide)
  · intro heq
    rw [heq] at hlow
    exact absurd hlow (by decide)

private theorem not_isLineEnd_of_isGL {b : UInt8} (h : isGL b = true) : isLineEnd b = false := by
  apply not_isLineEnd_of_le
  rw [UInt8.le_iff_toNat_le]
  exact Nat.le_trans (by decide) (toNat_isGL h).1

private theorem readsBack_designate {esc : Bytes} {code : UInt8} (hesc : IsDesignation esc)
    (hcode : cfg.desig.lookup esc = some code) :
    ReadsBack cfg mode (designate mode.g0 code esc) [] { mode with g0 := code } := by
  apply ReadsBack.of_not_isLineEnd (reads_designate hesc hcode) (fun r hr => absurd hr List.not_mem_nil)
    rfl
  intro b hb
  unfold designate at hb
  split at hb
  · cases hb with
    | head => decide
    | tail _ hb => exact not_isLineEnd_of_le (hesc.printable b hb)
  · exact absurd hb List.not_mem_nil

private theorem readsBack_ascii (hmode : mode.g0 = iso2022ModeASCII) (hr : r < 0x80)
    (hesc : r ≠ 0x1b) : ReadsBack cfg mode [r.toUInt8] [r] mode := by
  refine ⟨reads_ascii hmode hr hesc,?_,rfl,?_⟩
  · intro r' hr'
    have hscalar : r < 0xD800 := Nat.lt_trans hr (by decide)
    rw [List.mem_singleton.mp hr',isScalar,decide_eq_true hscalar,Bool.true_or]
  · intro pre b post heq _
    have hpre : pre = [] := by
      cases pre with
      | nil => rfl
      | cons c pre => cases pre <;> cases heq
    refine ⟨[],?_⟩
    rw [hpre,← hmode]
    exact Reads.refl mode

private theorem readsBack_roman (hmode : mode.g0 = iso2022ModeRoman)
    (hr : r = iso2022Yen ∨ r = iso2022Overline) :
    ReadsBack cfg mode [if r = iso2022Yen then 0x5C else 0x7E] [r] mode := by
  apply ReadsBack.of_not_isLineEnd (reads_roman hmode hr) _ rfl
  · intro b hb
    rw [List.mem_singleton.mp hb]
    split <;> decide
  · intro r' hr'
    rw [List.mem_singleton.mp hr']
    rcases hr with rfl | rfl <;> decide

variable (hreg : cfg.Registered) {cs : Iso2022Charset} (hcs : cs ∈ cfg.encodeOrder) (hinv : cs.Inverse)
include hreg hcs hinv

private theorem readsBack_encode (hv : cs.encode r = some v) :
    ReadsBack cfg mode (designate mode.g0 cs.code cs.esc ++ if cs.two then pairBytes v else [v.toUInt8])
      [r] { mode with g0 := cs.code } := by
  have hset := @readsBack_designate cfg mode cs.esc cs.code (hreg.esc cs hcs) (hreg.desig cs hcs)
  have hcode := hreg.code cs hcs
  have hlead := hinv.lead hv
  apply hset.trans
  apply ReadsBack.of_not_isLineEnd (reads_encode hinv (hreg.byCode cs hcs) hcode.1 hcode.2 hv) _ rfl
  · intro b hb
    by_cases htwo : cs.two = true
    · rw [if_pos htwo] at hb hlead
      cases hb with
      | head => exact not_isLineEnd_of_isGL hlead
      | tail _ hb =>
        rw [List.mem_singleton.mp hb]
        exact not_isLineEnd_of_isGL (hinv.bytes hv)
    · rw [if_neg htwo] at hb
      rw [List.mem_singleton.mp hb]
      exact not_isLineEnd_of_isGL (hinv.bytes hv)
  · intro r' hr'
    rw [List.mem_singleton.mp hr']
    exact hinv.scalar hv

private theorem readsBack_encode2 {r' : Rune} (hv : cs.encode2 (r, r') = some v) :
    ReadsBack cfg mode (designate mode.g0 cs.code cs.esc ++ pairBytes v) [r, r']
      { mode with g0 := cs.code } := by
  have hset := @readsBack_designate cfg mode cs.esc cs.code (hreg.esc cs hcs) (hreg.desig cs hcs)
  have hcode := hreg.code cs hcs
  obtain ⟨hlead,htrail⟩ := hinv.bytes2 hv
  obtain ⟨hfirst,hsecond⟩ := hinv.scalar2 hv
  apply hset.trans
  apply ReadsBack.of_not_isLineEnd (reads_encode2 hinv (hreg.byCode cs hcs) hcode.1 hcode.2 hv) _ rfl
  · intro b hb
    cases hb with
    | head => exact not_isLineEnd_of_isGL hlead
    | tail _ hb =>
      rw [List.mem_singleton.mp hb]
      exact not_isLineEnd_of_isGL htrail
  · intro r'' hr''
    cases hr'' with
    | head => exact hfirst
    | tail _ hr'' =>
      rw [List.mem_singleton.mp hr'']
      exact hsecond

end

/-! ## The encoder and the decoder in step -/

theorem encodeStep_ne_hold (cfg : Iso2022Config) (g0 : UInt8) (r : Rune) (rest : List Rune) :
    iso2022EncodeStep cfg true g0 r rest ≠ .hold := by
  intro h
  unfold iso2022EncodeStep at h
  repeat' split at h
  all_goals simp_all

section
variable {cfg : Iso2022Config} (hreg : cfg.Registered) (hinv : ∀ cs ∈ cfg.encodeOrder, cs.Inverse)
include hreg hinv

private theorem readsBack_encodeStep {final : Bool} {mode : Iso2022Mode} {rest : List Rune}
    {out : Bytes} {extra : Nat} {g0 : UInt8} (hr : r ≠ 0x1b)
    (h : iso2022EncodeStep cfg final mode.g0 r rest = .emit out extra g0) :
    ∃ taken, r :: rest = taken ++ rest.drop extra ∧
      ReadsBack cfg mode out taken { mode with g0 := g0 } := by
  unfold iso2022EncodeStep at h
  split at h
  · rename_i hascii
    obtain ⟨rfl,rfl,rfl⟩ := EncodeStep.emit.inj h
    have hset := @readsBack_designate cfg mode _ _ isDesignation_escASCII hreg.ascii
    exact ⟨[r],rfl,hset.trans (readsBack_ascii rfl hascii hr)⟩
  · split at h
    · rename_i hroman
      obtain ⟨rfl,rfl,rfl⟩ := EncodeStep.emit.inj h
      rw [Bool.and_eq_true,Bool.or_eq_true,decide_eq_true_eq,decide_eq_true_eq] at hroman
      have hset := @readsBack_designate cfg mode _ _ isDesignation_escRoman (hreg.roman hroman.1)
      exact ⟨[r],rfl,hset.trans (readsBack_roman rfl hroman.2)⟩
    · split at h
      · rename_i cs v hpair
        obtain ⟨rfl,rfl,rfl⟩ := EncodeStep.emit.inj h
        cases rest with
        | nil => cases hpair
        | cons r' rest =>
          obtain ⟨cs',hcs,hv⟩ := List.exists_of_findSome?_eq_some hpair
          obtain ⟨v',hv,heq⟩ := Option.map_eq_some_iff.mp hv
          cases heq
          exact ⟨[r,r'],rfl,readsBack_encode2 hreg hcs (hinv cs hcs) hv⟩
      · split at h
        · cases h
        · split at h
          · rename_i cs v hlookup
            obtain ⟨rfl,rfl,rfl⟩ := EncodeStep.emit.inj h
            obtain ⟨cs',hcs,hv⟩ := List.exists_of_findSome?_eq_some hlookup
            obtain ⟨v',hv,heq⟩ := Option.map_eq_some_iff.mp hv
            cases heq
            exact ⟨[r],rfl,readsBack_encode hreg hcs (hinv cs hcs) hv⟩
          · cases h

theorem readsBack_encodeLoop {text runes held : List Rune} {pos : Nat} {mode mode' : Iso2022Mode}
    {out : Bytes} (hesc : 0x1b ∉ runes)
    (h : iso2022EncodeLoop cfg .strict true text pos mode runes = .ok (out, held, mode')) :
    held = [] ∧ mode' = ⟨iso2022ModeASCII, mode.g2⟩ ∧ ReadsBack cfg mode out runes mode' := by
  induction hn : runes.length using Nat.strongRecOn generalizing runes pos mode out with
  | ind n ih =>
    cases runes with
    | nil =>
      rw [iso2022EncodeLoop,if_pos rfl] at h
      obtain ⟨rfl,heq⟩ := Prod.mk.inj (Except.ok.inj h)
      obtain ⟨rfl,rfl⟩ := Prod.mk.inj heq
      exact ⟨rfl,rfl,readsBack_designate isDesignation_escASCII hreg.ascii⟩
    | cons r rest =>
      rw [List.mem_cons,not_or] at hesc
      rw [iso2022EncodeLoop] at h
      cases hstep : iso2022EncodeStep cfg true mode.g0 r rest with
      | emit out₁ extra g0 =>
        rw [hstep] at h
        dsimp only at h
        obtain ⟨taken,htaken,hfirst⟩ := readsBack_encodeStep hreg hinv (Ne.symm hesc.1) hstep
        cases hlater : iso2022EncodeLoop cfg .strict true text (pos + extra + 1)
            { mode with g0 := g0 } (rest.drop extra) with
        | error e => rw [hlater] at h; cases h
        | ok p =>
          obtain ⟨out₂,held₂,mode₂⟩ := p
          rw [hlater] at h
          obtain ⟨rfl,heq⟩ := Prod.mk.inj (Except.ok.inj h)
          obtain ⟨rfl,rfl⟩ := Prod.mk.inj heq
          have hlt : (rest.drop extra).length < n := by
            rw [← hn,List.length_drop,List.length_cons]
            omega
          have hclean : 0x1b ∉ rest.drop extra := fun hmem => hesc.2 (List.mem_of_mem_drop hmem)
          obtain ⟨hheld,hmode,hback⟩ := ih _ hlt hclean hlater rfl
          refine ⟨hheld,hmode,?_⟩
          rw [htaken]
          exact hfirst.trans hback
      | hold => exact absurd hstep (encodeStep_ne_hold cfg mode.g0 r rest)
      | unmappable =>
        rw [hstep] at h
        cases h

end

/-! ## The codecs -/

def designations : List (UInt8 × Bytes) :=
  [(0xC2, [0x24, 0x42]), (0xC4, [0x24, 0x28, 0x44]), (0xCF, [0x24, 0x28, 0x4F]),
    (0xD1, [0x24, 0x28, 0x51]), (0xD0, [0x24, 0x28, 0x50]), (0xC1, [0x24, 0x28, 0x41]),
    (0xC3, [0x24, 0x28, 0x43]), (0x49, [0x28, 0x49])]

theorem isDesignation_designations {code : UInt8} (h : (code, esc) ∈ designations) :
    IsDesignation esc := by
  have hall : ∀ p ∈ designations,
      ((p.2.head?.any fun c => isEscHeader c && c ≠ 0x2E) = true ∧
        (∀ b ∈ p.2.dropLast, iso2022IsEscEnd b = false) ∧ p.2.getLast?.any iso2022IsEscEnd = true ∧
        p.2.length < iso2022MaxEscSeq ∧ ∀ b ∈ p.2, 0x20 ≤ b) := by decide +kernel
  obtain ⟨hheader,hbody,hlast,hshort,hprintable⟩ := hall _ h
  exact ⟨hheader,hbody,hlast,hshort,hprintable⟩

private theorem code_designations {code : UInt8} (h : (code, esc) ∈ designations) :
    code ≠ iso2022ModeASCII ∧ code ≠ iso2022ModeRoman := by
  have hall : ∀ p ∈ designations, p.1 ≠ iso2022ModeASCII ∧ p.1 ≠ iso2022ModeRoman := by
    decide +kernel
  exact hall _ h

private theorem mem_designations (t : Iso2022Tables) :
    ∀ cfg ∈ t.iso2022Configs, ∀ cs ∈ cfg.encodeOrder, (cs.code, cs.esc) ∈ designations := by
  intro cfg hcfg cs hcs
  fin_cases hcfg <;> fin_cases hcs
  all_goals repeat first
    | exact List.Mem.head _
    | apply List.Mem.tail

private theorem registered_iso2022Configs (t : Iso2022Tables) :
    ∀ cfg ∈ t.iso2022Configs, cfg.Registered := by
  intro cfg hcfg
  have hmem := mem_designations t cfg hcfg
  refine ⟨?_,?_,fun cs hcs => isDesignation_designations (hmem cs hcs),?_,?_,
    fun cs hcs => code_designations (hmem cs hcs)⟩
  · fin_cases hcfg <;> rfl
  · intro hroman
    fin_cases hcfg <;> first
      | rfl
      | cases hroman
  · intro cs hcs
    clear hmem
    fin_cases hcfg <;> fin_cases hcs <;> rfl
  · intro cs hcs
    clear hmem
    fin_cases hcfg <;> fin_cases hcs <;> rfl

/-- What the encoder writes for a text without escapes from the ASCII set decodes to that text, both end
in the ASCII set again, and the decoder stands in it before every line end that was written. -/
theorem iso2022_encode_decode_inverse {cfg : Iso2022Config} (hreg : cfg.Registered)
    (hinv : ∀ cs ∈ cfg.encodeOrder, cs.Inverse) {text held : List Rune} {g2 : UInt8} {out : Bytes}
    {mode : Iso2022Mode} (hesc : 0x1b ∉ text)
    (h : iso2022EncodeRun cfg text .strict true ⟨iso2022ModeASCII, g2⟩ = .ok (out, held, mode)) :
    held = [] ∧ mode = ⟨iso2022ModeASCII, g2⟩ ∧
      iso2022DecodeRun cfg out .strict true ⟨iso2022ModeASCII, g2⟩ =
        .ok (text, out.length, [], ⟨iso2022ModeASCII, g2⟩) ∧
      ∀ pre b post, out = pre ++ b :: post → isLineEnd b = true →
        ∃ text', iso2022DecodeRun cfg pre .strict true ⟨iso2022ModeASCII, g2⟩ =
          .ok (text', pre.length, [], ⟨iso2022ModeASCII, g2⟩) := by
  obtain ⟨hheld,hmode,hback⟩ := readsBack_encodeLoop hreg hinv hesc h
  subst hmode
  refine ⟨hheld,rfl,?_,?_⟩
  · rw [iso2022DecodeRun,hback.reads.decodeRun_eq]
    exact congrArg (fun t => Except.ok (t, out.length, [], _)) (goString_eq hback.scalar)
  · intro pre b post heq hend
    obtain ⟨runes,hreads⟩ := hback.lineEnds pre b post heq hend
    refine ⟨goString runes,?_⟩
    rw [iso2022DecodeRun,hreads.decodeRun_eq]
    rfl

/-- A character of two bytes, a combining pair and a line end in `iso2022_jp_2004`. -/
theorem pair_line_reads_back :
    let empty : CodeTable := ⟨fun _ => none,fun _ => none⟩
    let none : PairTable := ⟨fun _ => .none,fun _ => .none,fun _ => false⟩
    let one : CodeTable := ⟨fun r => if r = 0x3042 then some 0x2422 else .none,
      fun v => if v = 0x2422 then some 0x3042 else .none⟩
    let pairs : PairTable := ⟨fun v => if v = 0x2477 then some (0x304B, 0x309A) else .none,
      fun p => if p = (0x304B, 0x309A) then some 0x2477 else .none,(· == 0x304B)⟩
    let t : Iso2022Tables := ⟨one,empty,empty,none,empty,pairs,empty,fun _ => .none,empty,
      empty,fun _ => .none⟩
    iso2022DecodeRun t.iso2022JP2004 [0x1b,0x24,0x42,0x24,0x22,0x1b,0x24,0x28,0x51,0x24,
      0x77,0x1b,0x28,0x42,0x0A] .strict true ⟨0x42,0⟩ =
        .ok ([0x3042,0x304B,0x309A,0x0A], 15, [], ⟨0x42,0⟩) := by
  intro empty none one pairs t
  have hinv : ∀ cs ∈ t.iso2022JP2004.encodeOrder, cs.Inverse := by
    intro cs hcs
    -- what an empty table would have to give is no case, the rest is the one entry of a table
    fin_cases hcs <;> constructor <;> intro _ _ h <;> try cases h
    all_goals
      obtain ⟨rfl,h⟩ := Option.ite_none_right_eq_some.mp h
      cases h
      decide
  have hencode : iso2022EncodeRun t.iso2022JP2004 [0x3042,0x304B,0x309A,0x0A] .strict true
      ⟨iso2022ModeASCII,0⟩ = .ok ([0x1b,0x24,0x42,0x24,0x22,0x1b,0x24,0x28,0x51,0x24,
        0x77,0x1b,0x28,0x42,0x0A], [], ⟨iso2022ModeASCII,0⟩) := by
    decide +kernel
  have hreg : t.iso2022JP2004.Registered :=
    registered_iso2022Configs t _ (by simp [Iso2022Tables.iso2022Configs])
  exact (iso2022_encode_decode_inverse hreg hinv (by decide) hencode).2.2.1

end Unagi.Runtime
