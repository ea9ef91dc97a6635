import Unagi.Runtime.Iso2022Sound
import Unagi.Runtime.StreamCodecs

/-! # Incremental codecs and the cuts of their input

No codec decides on a chunk what it would decide otherwise on the whole input: what it needs more input
for it keeps. -/

namespace Unagi.Runtime

open Lib (DecodeStep decodeRun Extends Uniform Seamless)
open Objects (Bytes)

section
variable {α β σ ρ : Type}

/-- How many elements behind the first one a step takes. -/
def extraOf : DecodeStep σ ρ β → Nat
  | .emit _ extra _ | .illegal extra _ => extra
  | .incomplete _ => 0

@[simp] theorem extraOf_emit (out : List β) (extra : Nat) (s : σ) :
    extraOf (.emit out extra s : DecodeStep σ ρ β) = extra := rfl
@[simp] theorem extraOf_illegal (extra : Nat) (reason : ρ) :
    extraOf (.illegal extra reason : DecodeStep σ ρ β) = extra := rfl

/-- On what follows `n` elements, a step asks for more, or more of it changes nothing. -/
def Local (n : Nat) (step step' : List α → DecodeStep σ ρ β) : Prop :=
  ∀ rest, (∃ reason, step rest = .incomplete reason) ∨
    (extraOf (step rest) ≤ n + rest.length ∧ ∀ more, step' (rest ++ more) = step rest)

theorem extends_of_local {step step' : σ → α → List α → DecodeStep σ ρ β}
    (h : ∀ s a, Local 0 (step s a) (step' s a)) : Extends step step' := by
  have hdone : ∀ {s a rest d}, step s a rest = d → (∀ reason, d ≠ .incomplete reason) →
      extraOf d ≤ rest.length ∧ ∀ more, step' s a (rest ++ more) = d := by
    intro s a rest d hstep hne
    obtain ⟨reason,hmore⟩ | ⟨hle,hsame⟩ := h s a rest
    · exact absurd (hstep.symm.trans hmore) (hne reason)
    · rw [hstep,Nat.zero_add] at hle
      exact ⟨hle,fun more => (hsame more).trans hstep⟩
  exact ⟨fun hstep => hdone hstep (by simp),fun hstep => hdone hstep (by simp)⟩

/-- As `Local`, of one step. -/
abbrev Steady (n : Nat) (step : List α → DecodeStep σ ρ β) : Prop := Local n step step

variable {n : Nat}

theorem Local.const {d : DecodeStep σ ρ β} (h : extraOf d ≤ n) : Steady n fun _ : List α => d :=
  fun _ => .inr ⟨Nat.le_add_right_of_le h,fun _ => rfl⟩

theorem Local.next {step : List α → DecodeStep σ ρ β} (hnil : ∃ reason, step [] = .incomplete reason)
    (hcons : ∀ a, Steady (n + 1) fun rest => step (a :: rest)) : Steady n step := by
  intro rest
  cases rest with
  | nil => exact .inl hnil
  | cons a rest =>
    rw [List.length_cons,Nat.add_comm rest.length,← Nat.add_assoc]
    exact hcons a rest

theorem Local.ite {p : Prop} [Decidable p] {f g : List α → DecodeStep σ ρ β} (hf : Steady n f)
    (hg : Steady n g) : Steady n fun rest => if p then f rest else g rest := by
  by_cases h : p
  · simpa only [h,if_true] using hf
  · simpa only [h,if_false] using hg

end

theorem uniform_mbDecodeError (codec : String) (errors : ErrorMode) (data data' : Bytes) :
    Uniform (mbDecodeError codec data errors) (mbDecodeError codec data' errors) := by
  intro p q p' q' reason
  cases errors <;> rfl

theorem seamless_bufferedDecoder {σ : Type} {step : σ → UInt8 → Bytes → DecodeStep σ String Rune}
    (hstep : ∀ s b, Steady 0 (step s b)) (codec : String) (errors : ErrorMode) (init : σ)
    {text : List Rune → List Rune} (htext : ∀ out out', text (out ++ out') = text out ++ text out') :
    Seamless (bufferedDecoder init fun data final s =>
      (decodeRun step (mbDecodeError codec data errors) final s 0 data).map
        fun r => (text r.1, r.2)).run := by
  have hchunk : Seamless (Lib.decodeChunk (fun _ => step) fun data => mbDecodeError codec data errors) :=
    Lib.seamless_decodeChunk (extends_of_local hstep) (uniform_mbDecodeError codec errors)
  exact hchunk.map htext

theorem goString_append (out out' : List Rune) : goString (out ++ out') = goString out ++ goString out' :=
  List.map_append

/-! ### Units of the table codecs -/

theorem local_table (tc : MbTableCodec) (c : UInt8) : Steady 0 (tc.decodeStep c) := by
  unfold MbTableCodec.decodeStep
  cases tc.single c with
  | some r => exact .const (Nat.zero_le _)
  | none =>
    cases tc.lead c with
    | false => exact .const (Nat.zero_le _)
    | true =>
      refine .next ⟨_,rfl⟩ fun c2 => .const ?_
      cases doubleRunes tc.double tc.multi (pairKey c c2) <;> simp

theorem local_euc (ec : MbEUCJPCodec) (c : UInt8) : Steady 0 (ec.decodeStep c) := by
  unfold MbEUCJPCodec.decodeStep
  refine .ite (.const (Nat.zero_le _)) (.ite (.const (Nat.zero_le _)) (.ite ?_ ?_))
  · refine .next ⟨_,rfl⟩ fun c2 => .next ⟨_,rfl⟩ fun c3 => .const ?_
    cases ec.triple (pairKey c2 c3) <;> simp
  · refine .next ⟨_,rfl⟩ fun c2 => .const ?_
    cases doubleRunes ec.double ec.multi (pairKey c c2) <;> simp

def IsMakeup (c : UInt8) (rest : Bytes) : Prop :=
  c = euckrJamoFirst ∧ rest.head? = some euckrJamoFiller

variable {c : UInt8} {rest : Bytes}

theorem eucKR_table (tc : MbTableCodec) (h : ¬ IsMakeup c rest) :
    tc.eucKRCodec.decodeStep c rest = tc.decodeStep c rest := if_neg h

theorem eucKR_makeup (tc : MbTableCodec) (h : IsMakeup c rest) :
    tc.eucKRCodec.decodeStep c rest =
      if rest.length < 7 then .incomplete incompleteReason
      else
        match euckrSyllable ((rest.drop 1).take 6) with
        | some r => .emit [r] 7 ()
        | none => .illegal 0 illegalReason := if_pos h

theorem IsMakeup.append (h : IsMakeup c rest) (more : Bytes) :
    IsMakeup c (rest ++ more) := by
  refine ⟨h.1,?_⟩
  rw [List.head?_append,h.2]
  rfl

/-- The first byte of a make-up sequence must be a lead of the table, or its meaning would depend on
what follows. -/
theorem local_eucKR {tc : MbTableCodec} (hsingle : tc.single euckrJamoFirst = none)
    (hlead : tc.lead euckrJamoFirst = true) (c : UInt8) :
    Steady 0 (tc.eucKRCodec.decodeStep c) := by
  intro rest
  by_cases hmake : IsMakeup c rest
  · rw [eucKR_makeup tc hmake]
    by_cases hshort : rest.length < 7
    · exact .inl ⟨_,if_pos hshort⟩
    refine .inr ⟨?_,fun more => ?_⟩
    · rw [if_neg hshort,Nat.zero_add]
      cases euckrSyllable ((rest.drop 1).take 6) with
      | some r => exact Nat.le_of_not_lt hshort
      | none => exact Nat.zero_le _
    · have hfront : ((rest ++ more).drop 1).take 6 = (rest.drop 1).take 6 := by
        rw [List.drop_append_of_le_length (by omega),List.take_append_of_le_length]
        rw [List.length_drop]
        omega
      rw [eucKR_makeup tc (hmake.append more),if_neg hshort,hfront,if_neg]
      rw [List.length_append]
      omega
  · rw [eucKR_table tc hmake]
    by_cases hfirst : rest = [] ∧ c = euckrJamoFirst
    · obtain ⟨rfl,rfl⟩ := hfirst
      exact .inl ⟨incompleteReason,by simp [MbTableCodec.decodeStep,hsingle,hlead]⟩
    refine (local_table tc c rest).imp_right fun h => ⟨h.1,fun more => ?_⟩
    rw [eucKR_table tc,h.2]
    intro hmore
    cases rest with
    | nil => exact hfirst ⟨rfl,hmore.1⟩
    | cons c2 rest => exact hmake ⟨hmore.1,hmore.2⟩

theorem local_gb2312 (t : CodeTable) (c : UInt8) : Steady 0 ((gb2312Codec t).decodeStep c) := by
  refine .ite (.const (Nat.zero_le _)) (.next ⟨_,rfl⟩ fun c2 => .const ?_)
  cases t.decode (pairKey c c2) <;> simp

theorem local_gb18030 (t : CodeTable) (fourEncode fourDecode : Nat → Option Nat) (c : UInt8) :
    Steady 0 ((gb18030Codec t fourEncode fourDecode).decodeStep c) := by
  refine .ite (.const (Nat.zero_le _)) (.next ⟨_,rfl⟩ fun c2 => .ite ?_ (.const ?_))
  · refine .next ⟨_,rfl⟩ fun c3 => .next ⟨_,rfl⟩ fun c4 => .ite (.const ?_) (.const (Nat.zero_le _))
    cases fourDecode (gb18030Lin c c2 c3 c4) <;> simp
  · cases t.decode (pairKey c c2) <;> simp

/-! ### The other steps -/

theorem local_utf16 (be : Bool) (s : Unit) (b0 : UInt8) : Steady 0 (utf16Step be s b0) := by
  refine .next ⟨_,rfl⟩ fun b1 => .ite ?_ (.ite (.const le_rfl) (.const le_rfl))
  exact .next ⟨_,rfl⟩ fun b2 => .next ⟨_,rfl⟩ fun b3 =>
    .ite (.const le_rfl) (.const (Nat.le_add_left 1 2))
theorem local_utf32 (be : Bool) (s : Unit) (b0 : UInt8) : Steady 0 (utf32Step be s b0) :=
  .next ⟨_,rfl⟩ fun _ => .next ⟨_,rfl⟩ fun _ => .next ⟨_,rfl⟩ fun _ =>
    .ite (.const le_rfl) (.ite (.const le_rfl) (.const le_rfl))

/-- An escape sequence that was found is found again with more input, and so is one that is too
long. -/
theorem scanEsc_append_of_ne {n : Nat} {data : Bytes} (h : scanEsc n data ≠ .incomplete) (more : Bytes) :
    scanEsc n (data ++ more) = scanEsc n data := by
  induction n generalizing data with
  | zero => rfl
  | succ n ih =>
    cases data with
    | nil => exact absurd rfl h
    | cons c data =>
      rw [List.cons_append,scanEsc,scanEsc]
      split
      · rfl
      · rename_i hend
        have hrest : scanEsc n data ≠ .incomplete := by
          intro hrest
          apply h
          rw [scanEsc,if_neg hend,hrest]
        rw [ih hrest]

theorem scanEsc_le {n len : Nat} {data : Bytes} (h : scanEsc n data = .found len) :
    len ≤ data.length := by
  induction n generalizing data len with
  | zero => cases h
  | succ n ih =>
    cases data with
    | nil => cases h
    | cons c data =>
      rw [scanEsc] at h
      split at h
      · cases h
        exact Nat.le_add_left 1 _
      · cases hrest : scanEsc n data with
        | found len' =>
          rw [hrest] at h
          cases h
          exact Nat.succ_le_succ (ih hrest)
        | incomplete => rw [hrest] at h; cases h
        | tooLong => rw [hrest] at h; cases h

/-- Behind an escape, `f` decides on the sequence that is found. -/
def escape {σ : Type} (c1 : UInt8) (f : Nat → Bytes → DecodeStep σ String Rune) (data : Bytes) :
    DecodeStep σ String Rune :=
  match scanEsc (iso2022MaxEscSeq - 1) (c1 :: data) with
  | .incomplete => .incomplete incompleteReason
  | .tooLong => .illegal 0 illegalReason
  | .found len => f len ((c1 :: data).take len)

theorem local_escape {σ : Type} (c1 : UInt8) {f : Nat → Bytes → DecodeStep σ String Rune}
    (hfound : ∀ len tail, extraOf (f len tail) ≤ len) : Steady 1 (escape c1 f) := by
  intro data
  have hsame : scanEsc (iso2022MaxEscSeq - 1) (c1 :: data) ≠ .incomplete → ∀ more,
      scanEsc (iso2022MaxEscSeq - 1) (c1 :: (data ++ more)) =
        scanEsc (iso2022MaxEscSeq - 1) (c1 :: data) :=
    fun h more => scanEsc_append_of_ne h more
  simp only [escape]
  cases hscan : scanEsc (iso2022MaxEscSeq - 1) (c1 :: data) with
  | incomplete => exact .inl ⟨_,rfl⟩
  | tooLong =>
    refine .inr ⟨Nat.zero_le _,fun more => ?_⟩
    rw [hsame (by rw [hscan]; nofun),hscan]
  | found len =>
    have hle : len ≤ data.length + 1 := scanEsc_le hscan
    refine .inr ⟨(hfound len _).trans (Nat.add_comm .. ▸ hle),fun more => ?_⟩
    rw [hsame (by rw [hscan]; nofun),hscan]
    dsimp only
    rw [← List.cons_append,List.take_append_of_le_length hle]

/-- What a designation that was found does. -/
def redesignated (cfg : Iso2022Config) (mode : Iso2022Mode) (c1 : UInt8) (len : Nat) (tail : Bytes) :
    DecodeStep Iso2022Mode String Rune :=
  match redesignate cfg mode c1 tail with
  | some mode => .emit [] len mode
  | none => .illegal len illegalReason

theorem local_iso2022Esc (cfg : Iso2022Config) (mode : Iso2022Mode) :
    Steady 0 (iso2022EscStep cfg mode) := by
  have hfound (c1 : UInt8) := local_escape c1 (f := redesignated cfg mode c1) fun len tail => by
    unfold redesignated
    cases redesignate cfg mode c1 tail <;> exact le_rfl
  refine .next ⟨_,rfl⟩ fun c1 => .ite (.next ⟨_,rfl⟩ fun b => .const ?_)
    (.ite (hfound c1) (.const (Nat.zero_le _)))
  cases ss2Rune cfg mode.g2 b <;> exact le_rfl

theorem local_iso2022 (cfg : Iso2022Config) (mode : Iso2022Mode) (c : UInt8) :
    Steady 0 (iso2022DecodeStep cfg mode c) := by
  refine .ite (local_iso2022Esc cfg mode) (.ite (.const le_rfl) (.ite (.const le_rfl)
    (.ite (.const le_rfl) (.ite (.const le_rfl) (.ite (.const ?_)
      (.next ⟨_,rfl⟩ fun c2 => .const ?_))))))
  · cases (cfg.byCode.lookup mode.g0).bind (·.decode c.toUInt16) <;> exact le_rfl
  · cases pairRunes (cfg.byCode.lookup mode.g0) c c2 <;> exact le_rfl

theorem local_iso2022KREsc (mode : Iso2022KRMode) : Steady 0 (iso2022KREscStep mode) := by
  have hfound (c1 : UInt8) := local_escape c1 (f := fun len tail =>
    if tail = [0x24,0x29,0x43] then .emit [] len { mode with g1 := iso2022ModeKSC5601 }
    else if tail = escASCII then .emit [] len mode
    else .illegal len illegalReason) fun len tail => by
      split
      · exact le_rfl
      · split <;> exact le_rfl
  exact .next ⟨_,rfl⟩ fun c1 => .ite (hfound c1) (.const (Nat.zero_le _))

theorem local_iso2022KR (t : CodeTable) (mode : Iso2022KRMode) (c : UInt8) :
    Steady 0 (iso2022KRDecodeStep t mode c) := by
  refine .ite (local_iso2022KREsc mode) (.ite (.const le_rfl) (.ite (.const le_rfl) (.ite (.const le_rfl)
    (.ite (.const le_rfl) (.ite (.const le_rfl) (.ite (.const le_rfl)
      (.next ⟨_,rfl⟩ fun c2 => .const ?_)))))))
  cases t.decode (pairKey c c2) <;> exact le_rfl

/-! ## Encoders -/

/-- An encoder whose held code points survive as a Go string, with what a final chunk writes at the
end. -/
theorem seamless_pendingEncoder {σ : Type}
    {step : Bool → σ → Rune → List Rune → DecodeStep σ String UInt8}
    (hstep : ∀ s r, Local 0 (step false s r) (step true s r))
    (hheld : ∀ s r rest reason, step false s r rest = .incomplete reason →
      ∀ r' ∈ r :: rest, isScalar r' = true) (codec : String) (init : σ) (flush : σ → Bytes) (ends : σ → σ) :
    Seamless (pendingEncoder init fun runes final s =>
      (decodeRun (step final) (mbEncodeError codec runes) final s 0 runes).map fun r =>
        if final then (r.1 ++ flush r.2.2, r.2.1, ends r.2.2) else r).run := by
  have huniform : ∀ data data', Uniform (mbEncodeError codec data) (mbEncodeError codec data') :=
    fun _ _ _ _ _ _ _ => rfl
  have hchunk : Seamless (Lib.decodeChunk step (mbEncodeError codec)) :=
    Lib.seamless_decodeChunk (extends_of_local hstep) huniform
  have hpending : Seamless fun final (st : List Rune × σ) runes =>
      ((Lib.decodeChunk step (mbEncodeError codec) final st runes).map fun r =>
        if final then (r.1 ++ flush r.2.2, r.2.1, ends r.2.2) else r).map
          fun r => (r.1, goString r.2.1, r.2.2) := by
    intro st chunk more
    have hcut := hchunk st chunk more
    simp only [Lib.toOption_map,if_true,Bool.false_eq_true,if_false]
    cases hfirst : Lib.decodeChunk step (mbEncodeError codec) false st chunk with
    | error e =>
      rw [hfirst] at hcut
      rw [hcut]
      rfl
    | ok r =>
      -- what is held back is the same after it has been kept
      have hkept : goString r.2.1 = r.2.1 := goString_eq (Lib.decodeRun_kept hheld hfirst)
      rw [hfirst] at hcut
      rw [hcut]
      simp only [Except.toOption,Option.bind_some,Option.map_some,Option.map_map,Function.comp_def,
        hkept,List.append_assoc]
  exact hpending

/-- A code point that can begin a pair is known as a base, and is a character. -/
structure MbCodec.BasesKnown (c : MbCodec) : Prop where
  base : ∀ {r r' bs}, (c.encodePair.bind (· r r')) = some bs → c.encodeBase.any (· r) = true
  scalar : ∀ {r}, c.encodeBase.any (· r) = true → isScalar r = true

@[simp] theorem extraOf_mbUnmappable {σ : Type} (errors : ErrorMode) (s replaced : σ)
    (replacement : Bytes) : extraOf (mbUnmappable errors s replacement replaced) = 0 := by
  cases errors <;> rfl

variable {c : MbCodec} {codec : StreamCodec}

theorem local_mbEncodeUnit (hc : c.BasesKnown) (errors : ErrorMode) (s : Unit) (r : Rune) :
    Local 0 (mbEncodeUnit c errors false s r) (mbEncodeUnit c errors true s r) := by
  intro rest
  by_cases hhold : (!false && rest.isEmpty && c.encodeBase.any (· r)) = true
  · exact .inl ⟨illegalReason,if_pos hhold⟩
  -- no pair begins with a code point that was not held at the end
  have hpair : ∀ more, ((rest ++ more).head?.bind fun r' => c.encodePair.bind (· r r')) =
      rest.head?.bind fun r' => c.encodePair.bind (· r r') := by
    intro more
    cases rest with
    | nil =>
      have hbase : ¬ c.encodeBase.any (· r) = true := by simpa using hhold
      cases more with
      | nil => rfl
      | cons r' more => exact Option.eq_none_iff_forall_ne_some.mpr fun bs hbs => hbase (hc.base hbs)
    | cons r' rest => rfl
  have hfinal : ∀ rest' : List Rune, (!true && rest'.isEmpty && c.encodeBase.any (· r)) ≠ true := by
    intro rest'
    simp
  refine .inr ?_
  simp only [mbEncodeUnit,if_neg hhold,if_neg (hfinal _),hpair,implies_true,and_true]
  cases hfound : rest.head?.bind fun r' => c.encodePair.bind (· r r') with
  | some bs =>
    cases rest with
    | nil => cases hfound
    | cons r' rest => simp
  | none => cases c.encodeStep r <;> simp

theorem held_mbEncodeUnit (hc : c.BasesKnown) (errors : ErrorMode) (s : Unit) (r : Rune)
    (rest : List Rune) (reason : String) (h : mbEncodeUnit c errors false s r rest = .incomplete reason) :
    ∀ r' ∈ r :: rest, isScalar r' = true := by
  unfold mbEncodeUnit at h
  split at h
  · rename_i hhold
    rw [Bool.and_eq_true,Bool.and_eq_true,List.isEmpty_iff] at hhold
    intro r' hr'
    rw [hhold.1.2,List.mem_singleton] at hr'
    rw [hr']
    exact hc.scalar hhold.2
  · split at h
    · cases h
    · split at h
      · cases h
      · cases errors <;> cases h

def iso2022EncodeUnit (cfg : Iso2022Config) (errors : ErrorMode) (final : Bool) (mode : Iso2022Mode)
    (r : Rune) (rest : List Rune) : DecodeStep Iso2022Mode String UInt8 :=
  match iso2022EncodeStep cfg final mode.g0 r rest with
  | .emit out extra g0 => .emit out extra { mode with g0 }
  | .hold => .incomplete illegalReason
  | .unmappable =>
    mbUnmappable errors mode (designate mode.g0 iso2022ModeASCII escASCII ++ [0x3F])
      { mode with g0 := iso2022ModeASCII }

/-- What a final chunk writes at the end, and the mode it leaves. -/
def iso2022Flush (final : Bool) (r : Bytes × List Rune × Iso2022Mode) :
    Bytes × List Rune × Iso2022Mode :=
  if final then (r.1 ++ designate r.2.2.g0 iso2022ModeASCII escASCII, r.2.1,
    { r.2.2 with g0 := iso2022ModeASCII }) else r

/-- The bytes of a turn go before those at the end. -/
theorem map_iso2022Flush {ε : Type} (final : Bool) (out : Bytes)
    (x : Except ε (Bytes × List Rune × Iso2022Mode)) :
    (x.map fun r => (out ++ r.1, r.2)).map (iso2022Flush final) =
      (x.map (iso2022Flush final)).map fun p => (out ++ p.1, p.2) := by
  cases x <;> cases final <;> simp [Except.map,iso2022Flush]

theorem iso2022EncodeLoop_eq (cfg : Iso2022Config) (errors : ErrorMode) (final : Bool)
    (text : List Rune) (pos : Nat) (mode : Iso2022Mode) (runes : List Rune) :
    iso2022EncodeLoop cfg errors final text pos mode runes =
      (decodeRun (iso2022EncodeUnit cfg errors final) (mbEncodeError cfg.name text) final mode pos
        runes).map (iso2022Flush final) := by
  induction hn : runes.length using Nat.strongRecOn generalizing pos mode runes with
  | ind n ih =>
    cases runes with
    | nil =>
      rw [iso2022EncodeLoop,Lib.decodeRun_nil]
      cases final <;> rfl
    | cons r rest =>
      have hlt : ∀ extra, (rest.drop extra).length < n := by
        intro extra
        rw [← hn,List.length_drop,List.length_cons]
        omega
      have hemit : ∀ {out extra mode'},
          iso2022EncodeUnit cfg errors final mode r rest = .emit out extra mode' →
          (decodeRun (iso2022EncodeUnit cfg errors final) (mbEncodeError cfg.name text) final mode pos
            (r :: rest)).map (iso2022Flush final) =
              (iso2022EncodeLoop cfg errors final text (pos + extra + 1) mode'
                (rest.drop extra)).map fun p => (out ++ p.1, p.2) := by
        intro out extra mode' hunit
        rw [Lib.decodeRun_emit hunit,map_iso2022Flush,← ih _ (hlt extra) _ _ _ rfl]
      rw [iso2022EncodeLoop.eq_def]
      dsimp only
      cases hstep : iso2022EncodeStep cfg final mode.g0 r rest with
      | emit out extra g0 => exact (hemit (by rw [iso2022EncodeUnit,hstep])).symm
      | hold =>
        have hunit : iso2022EncodeUnit cfg errors final mode r rest = .incomplete illegalReason := by
          rw [iso2022EncodeUnit,hstep]
        cases final with
        | true => exact absurd hstep (encodeStep_ne_hold cfg mode.g0 r rest)
        | false =>
          rw [decodeRun,hunit]
          rfl
      | unmappable =>
        have hunit : iso2022EncodeUnit cfg errors final mode r rest =
            mbUnmappable errors mode (designate mode.g0 iso2022ModeASCII escASCII ++ [0x3F])
              { mode with g0 := iso2022ModeASCII } := by
          rw [iso2022EncodeUnit,hstep]
        cases errors with
        | strict =>
          rw [decodeRun,hunit]
          rfl
        | ignore =>
          rw [hemit hunit,List.drop_zero,Nat.add_zero]
          cases iso2022EncodeLoop cfg .ignore final text (pos + 1) mode rest <;> rfl
        | replace =>
          rw [hemit hunit]
          simp only [List.append_assoc,List.singleton_append,List.drop_zero,Nat.add_zero]

theorem encodeStep_extra {cfg : Iso2022Config} {final : Bool} {g0 g0' : UInt8} {r : Rune}
    {rest : List Rune} {out : Bytes} {extra : Nat} (h : iso2022EncodeStep cfg final g0 r rest = .emit out extra g0') :
    extra ≤ rest.length := by
  unfold iso2022EncodeStep at h
  split at h
  · cases h
    exact Nat.zero_le _
  · split at h
    · cases h
      exact Nat.zero_le _
    · split at h
      · rename_i hpair
        cases h
        cases rest with
        | nil => cases hpair
        | cons r' rest => exact Nat.le_add_left 1 _
      · split at h
        · cases h
        · split at h
          · cases h
            exact Nat.zero_le _
          · cases h

/-- A code point that can begin a pair in a set is known as a base there, and is a character. -/
structure Iso2022Config.BasesKnown (cfg : Iso2022Config) : Prop where
  base : ∀ cs ∈ cfg.encodeOrder, ∀ {r r' v}, cs.encode2 (r, r') = some v → cs.base r = true
  scalar : ∀ cs ∈ cfg.encodeOrder, ∀ {r}, cs.base r = true → isScalar r = true

section
variable {cfg : Iso2022Config} (hcfg : cfg.BasesKnown)
include hcfg

theorem isBase_of_encodePair {r : Rune} {rest : List Rune} (h : (cfg.encodePair r rest).isSome = true) :
    cfg.isBase r = true := by
  cases rest with
  | nil => cases h
  | cons r' rest =>
    obtain ⟨p,hp⟩ := Option.isSome_iff_exists.mp h
    obtain ⟨cs,hcs,hv⟩ := List.exists_of_findSome?_eq_some hp
    obtain ⟨v,hv,-⟩ := Option.map_eq_some_iff.mp hv
    exact List.any_eq_true.mpr ⟨cs,hcs,hcfg.base cs hcs hv⟩

theorem encodeStep_append {g0 : UInt8} {r : Rune} {rest : List Rune}
    (h : iso2022EncodeStep cfg false g0 r rest ≠ .hold) (more : List Rune) :
    iso2022EncodeStep cfg true g0 r (rest ++ more) = iso2022EncodeStep cfg false g0 r rest := by
  unfold iso2022EncodeStep at h ⊢
  by_cases hascii : r < 0x80
  · rw [if_pos hascii,if_pos hascii]
  · rw [if_neg hascii,if_neg hascii]
    rw [if_neg hascii] at h
    by_cases hroman : (cfg.hasRoman && (decide (r = iso2022Yen) || decide (r = iso2022Overline))) = true
    · rw [if_pos hroman,if_pos hroman]
    · rw [if_neg hroman,if_neg hroman]
      rw [if_neg hroman] at h
      cases rest with
      | cons r' rest =>
        have hpair : cfg.encodePair r (r' :: rest ++ more) = cfg.encodePair r (r' :: rest) := rfl
        rw [hpair]
        cases cfg.encodePair r (r' :: rest) <;> rfl
      | nil =>
        have hbase : ¬ cfg.isBase r = true := by
          intro hbase
          apply h
          change (if (!false && true && cfg.isBase r) = true then EncodeStep.hold else _) = _
          rw [hbase]
          rfl
        have hpair : ∀ rest, cfg.encodePair r rest = none := by
          intro rest
          cases hsome : cfg.encodePair r rest with
          | none => rfl
          | some p => exact absurd (isBase_of_encodePair hcfg (by rw [hsome]; rfl)) hbase
        rw [hpair,hpair]
        dsimp only
        rw [if_neg (by simp),if_neg (by simpa using hbase)]

theorem local_iso2022EncodeUnit (errors : ErrorMode) (mode : Iso2022Mode) (r : Rune) :
    Local 0 (iso2022EncodeUnit cfg errors false mode r) (iso2022EncodeUnit cfg errors true mode r) := by
  intro rest
  by_cases hhold : iso2022EncodeStep cfg false mode.g0 r rest = .hold
  · exact .inl ⟨illegalReason,by rw [iso2022EncodeUnit,hhold]⟩
  refine .inr ⟨?_,fun more => by rw [iso2022EncodeUnit,encodeStep_append hcfg hhold,iso2022EncodeUnit]⟩
  rw [iso2022EncodeUnit,Nat.zero_add]
  cases hstep : iso2022EncodeStep cfg false mode.g0 r rest with
  | hold => exact absurd hstep hhold
  | emit out extra g0 => exact encodeStep_extra hstep
  | unmappable => simp

theorem held_iso2022EncodeUnit (errors : ErrorMode) (mode : Iso2022Mode) (r : Rune) (rest : List Rune)
    (reason : String) (h : iso2022EncodeUnit cfg errors false mode r rest = .incomplete reason) :
    ∀ r' ∈ r :: rest, isScalar r' = true := by
  cases hstep : iso2022EncodeStep cfg false mode.g0 r rest with
  | emit out extra g0 => rw [iso2022EncodeUnit,hstep] at h; cases h
  | unmappable =>
    rw [iso2022EncodeUnit,hstep] at h
    cases errors <;> cases h
  | hold =>
    unfold iso2022EncodeStep at hstep
    split at hstep
    · cases hstep
    · split at hstep
      · cases hstep
      · split at hstep
        · cases hstep
        · split at hstep
          · rename_i hhold
            rw [Bool.and_eq_true,Bool.and_eq_true,List.isEmpty_iff] at hhold
            intro r' hr'
            rw [hhold.1.2,List.mem_singleton] at hr'
            obtain ⟨cs,hcs,hbase⟩ := List.any_eq_true.mp hhold.2
            rw [hr']
            exact hcfg.scalar cs hcs hbase
          · split at hstep <;> cases hstep

end

theorem local_iso2022KREncodeUnit (t : CodeTable) (errors : ErrorMode) (mode : Iso2022KRMode)
    (r : Rune) : Steady 0 (iso2022KREncodeUnit t errors mode r) := by
  refine .ite (.const le_rfl) (.const ?_)
  cases t.encode r <;> simp

/-! ## The codecs -/

/-- The bases of a table are what begins its pairs, and are characters. -/
structure PairsKnown (encPair : Rune × Rune → Option UInt16) (base : Rune → Bool) : Prop where
  known : ∀ {r r' v}, encPair (r, r') = some v → base r = true
  scalar : ∀ {r}, base r = true → isScalar r = true

/-- The codecs that are driven unit by unit, with any tables. -/
inductive MbCodec.FromTables : MbCodec → Prop
  | table (tc : MbTableCodec) (h : PairsKnown tc.encPair tc.base) : FromTables tc.codec
  | euc (ec : MbEUCJPCodec) (h : PairsKnown ec.encPair ec.base) : FromTables ec.codec
  | eucJP (ec : MbEUCJPCodec) (h : PairsKnown ec.encPair ec.base) : FromTables ec.eucJPCodec
  | eucKR (tc : MbTableCodec) (hsingle : tc.single euckrJamoFirst = none)
    (hlead : tc.lead euckrJamoFirst = true) : FromTables tc.eucKRCodec
  | gb2312 (t : CodeTable) : FromTables (gb2312Codec t)
  | gb18030 (t : CodeTable) (fourEncode fourDecode : Nat → Option Nat) :
    FromTables (gb18030Codec t fourEncode fourDecode)

/-- Tables that mean what they are for; the decoders of the others need nothing. -/
def StreamCodec.WellFormed : StreamCodec → Prop
  | multibyte c => c.FromTables
  | iso2022 cfg => cfg.BasesKnown
  | _ => True

theorem MbCodec.FromTables.local (h : c.FromTables) (b : UInt8) : Steady 0 (c.decodeStep b) := by
  cases h with
  | table tc => exact local_table tc b
  | euc ec | eucJP ec => exact local_euc ec b
  | eucKR tc hsingle hlead => exact local_eucKR hsingle hlead b
  | gb2312 t => exact local_gb2312 t b
  | gb18030 t fourEncode fourDecode => exact local_gb18030 t fourEncode fourDecode b

theorem basesKnown_of_pairsKnown {encPair : Rune × Rune → Option UInt16} {base : Rune → Bool}
    (h : PairsKnown encPair base) {plain : Bool}
    (hpair : c.encodePair = if plain then none else some fun r r' => (encPair (r, r')).map pairBytes)
    (hbase : c.encodeBase = if plain then none else some base) : c.BasesKnown := by
  constructor
  · intro r r' bs hbs
    rw [hpair] at hbs
    rw [hbase]
    cases plain with
    | true => cases hbs
    | false =>
      obtain ⟨v,hv,-⟩ := Option.map_eq_some_iff.mp hbs
      exact h.known hv
  · intro r hr
    rw [hbase] at hr
    cases plain with
    | true => cases hr
    | false => exact h.scalar hr

theorem basesKnown_of_none (hpair : c.encodePair = none) (hbase : c.encodeBase = none) :
    c.BasesKnown := by
  constructor
  · intro r r' bs h
    rw [hpair] at h
    cases h
  · intro r h
    rw [hbase] at h
    cases h

theorem MbCodec.FromTables.basesKnown (h : c.FromTables) : c.BasesKnown := by
  cases h with
  | table _ h | euc _ h | eucJP _ h => exact basesKnown_of_pairsKnown h rfl rfl
  | eucKR | gb2312 | gb18030 => exact basesKnown_of_none rfl rfl

theorem seamless_decoder (hcodec : codec.WellFormed) (errors : ErrorMode) :
    Seamless (codec.decoder errors).run := by
  cases codec with
  | multibyte c =>
    have hrun : (fun data final (_ : Unit) => mbDecodeRun c data errors final) =
        fun data final s => (decodeRun (fun _ => c.decodeStep) (mbDecodeError c.name data errors) final s
          0 data).map fun r => (id r.1, r.2) := by
      funext data final s
      unfold mbDecodeRun
      cases decodeRun (fun _ => c.decodeStep) (mbDecodeError c.name data errors) final () 0 data <;> rfl
    change Seamless (bufferedDecoder () fun data final _ => mbDecodeRun c data errors final).run
    rw [hrun]
    exact seamless_bufferedDecoder (fun _ => hcodec.local) c.name errors () fun _ _ => rfl
  | iso2022 cfg =>
    have hrun : (fun data final mode => (iso2022DecodeRun cfg data errors final mode).map
        fun r => (r.1, r.2.2)) =
        fun data final mode => (decodeRun (iso2022DecodeStep cfg) (mbDecodeError cfg.name data errors)
          final mode 0 data).map fun r => (goString r.1, r.2) := by
      funext data final mode
      unfold iso2022DecodeRun
      cases decodeRun (iso2022DecodeStep cfg) (mbDecodeError cfg.name data errors) final mode 0
        data <;> rfl
    change Seamless (bufferedDecoder cfg.initMode fun data final mode =>
      (iso2022DecodeRun cfg data errors final mode).map fun r => (r.1, r.2.2)).run
    rw [hrun]
    exact seamless_bufferedDecoder (local_iso2022 cfg) cfg.name errors _ goString_append
  | iso2022KR t =>
    exact seamless_bufferedDecoder (local_iso2022KR t) "iso2022_kr" errors _ goString_append
  | utf16 be =>
    exact seamless_bufferedDecoder (local_utf16 be) (utf16Name be) errors _ goString_append
  | utf32 be =>
    exact seamless_bufferedDecoder (local_utf32 be) (utf32Name be) errors _ goString_append

theorem seamless_encoder (hcodec : codec.WellFormed) (errors : ErrorMode)
    {enc : Coder Rune UInt8} (henc : codec.encoder errors = some enc) : Seamless enc.run := by
  cases codec with
  | multibyte c =>
    cases henc
    have hrun : (fun runes final (_ : Unit) => mbEncodeRun c runes errors final) =
        fun runes final s => (decodeRun (mbEncodeUnit c errors final) (mbEncodeError c.name runes) final s
          0 runes).map fun r => if final then (r.1 ++ [], r.2.1, r.2.2) else r := by
      funext runes final s
      unfold mbEncodeRun
      cases decodeRun (mbEncodeUnit c errors final) (mbEncodeError c.name runes) final () 0 runes with
      | error e => rfl
      | ok r => cases final <;> simp [Except.map]
    rw [hrun]
    exact seamless_pendingEncoder (local_mbEncodeUnit hcodec.basesKnown errors)
      (held_mbEncodeUnit hcodec.basesKnown errors) c.name () (fun _ => []) id
  | iso2022 cfg =>
    cases henc
    have hrun : (fun runes final mode => iso2022EncodeRun cfg runes errors final mode) =
        fun runes final mode => (decodeRun (iso2022EncodeUnit cfg errors final)
          (mbEncodeError cfg.name runes) final mode 0 runes).map (iso2022Flush final) := by
      funext runes final mode
      exact iso2022EncodeLoop_eq cfg errors final runes 0 mode runes
    rw [hrun]
    exact seamless_pendingEncoder (local_iso2022EncodeUnit hcodec errors)
      (held_iso2022EncodeUnit hcodec errors) cfg.name cfg.initMode
      (fun mode => designate mode.g0 iso2022ModeASCII escASCII)
      (fun mode => { mode with g0 := iso2022ModeASCII })
  | iso2022KR t =>
    cases henc
    have hheld : ∀ mode r rest reason, iso2022KREncodeUnit t errors mode r rest = .incomplete reason →
        ∀ r' ∈ r :: rest, isScalar r' = true := by
      intro mode r rest reason h
      unfold iso2022KREncodeUnit at h
      split at h
      · cases h
      · split at h
        · cases h
        · cases errors <;> cases h
    exact @seamless_pendingEncoder Iso2022KRMode (fun _ => iso2022KREncodeUnit t errors)
      (local_iso2022KREncodeUnit t errors) hheld "iso2022_kr" ⟨iso2022ModeASCII,false⟩ shiftIn
      (fun mode => { mode with shifted := false })
  | utf16 be => cases henc
  | utf32 be => cases henc

theorem ok_iff_of_toOption_eq {ε γ : Type} {x y : Except ε γ} (h : x.toOption = y.toOption) (c : γ) :
    x = .ok c ↔ y = .ok c := by
  cases x <;> cases y <;> cases h <;> simp

/-- Fed in chunks, the decoder of every codec gives the text that decoding the whole input gives, and
raises in some call just if that raises; and so does the encoder of every codec that keeps code points
or a mode between chunks. -/
theorem incremental_codecs_independent_of_cuts {codec : StreamCodec} (hcodec : codec.WellFormed)
    (errors : ErrorMode) :
    (∀ (chunks : List Bytes) (last : Bytes) (text : List Rune),
      (codec.decoder errors).feed chunks last = .ok text ↔
        (codec.decoder errors).oneShot (chunks.flatten ++ last) = .ok text) ∧
      ∀ enc, codec.encoder errors = some enc →
        ∀ (chunks : List (List Rune)) (last : List Rune) (bytes : Bytes),
          enc.feed chunks last = .ok bytes ↔ enc.oneShot (chunks.flatten ++ last) = .ok bytes := by
  constructor
  · intro chunks last text
    apply ok_iff_of_toOption_eq
    rw [Coder.oneShot,Lib.toOption_map]
    exact (seamless_decoder hcodec errors).feed_eq _ chunks last
  · intro enc henc chunks last bytes
    apply ok_iff_of_toOption_eq
    rw [Coder.oneShot,Lib.toOption_map]
    exact (seamless_encoder hcodec errors henc).feed_eq _ chunks last

/-- A table with one combining pair, as `big5hkscs` has it. -/
def combiningTable : MbTableCodec :=
  { name := "big5hkscs"
    single := fun c => if c < 0x80 then some c.toNat else none
    lead := fun c => 0x80 ≤ c
    double := fun _ => none
    multi := [(0x8862, 0xCA, 0x304)]
    encSingle := fun r => if r < 0x80 then some r.toUInt8 else none
    encDouble := fun _ => none
    encPair := fun p => if p = (0xCA, 0x304) then some 0x8862 else none
    base := fun r => r = 0xCA }

/-- Without the base of the pair the encoder does not hold its first code point back. -/
theorem pair_without_base_cut :
    ∃ enc, StreamCodec.encoder .strict (.multibyte { combiningTable with base := fun _ => false }.codec) =
        some enc ∧ enc.oneShot [0xCA,0x304] = .ok [0x88,0x62] ∧
      (enc.feed [[0xCA]] [0x304]).toOption = none :=
  ⟨_,rfl,by decide +kernel,by decide +kernel⟩

/-- A pair that is cut between its bytes, and between its code points. -/
theorem combining_pair_cut :
    (StreamCodec.decoder .strict (.multibyte combiningTable.codec)).feed [[0x88]] [0x62] =
        .ok [0xCA, 0x304] ∧
      ∀ enc, StreamCodec.encoder .strict (.multibyte combiningTable.codec) = some enc →
        enc.feed [[0xCA]] [0x304] = .ok [0x88, 0x62] := by
  have hpairs : PairsKnown combiningTable.encPair combiningTable.base := by
    constructor
    · intro r r' v h
      change (if (r, r') = (0xCA, 0x304) then some 0x8862 else none) = some v at h
      split at h
      · rename_i heq
        cases heq
        rfl
      · cases h
    · intro r h
      rw [of_decide_eq_true h]
      rfl
  have hcodec : StreamCodec.WellFormed (.multibyte combiningTable.codec) := .table _ hpairs
  have hcuts := incremental_codecs_independent_of_cuts hcodec .strict
  refine ⟨(hcuts.1 _ _ _).mpr (by decide +kernel),?_⟩
  intro enc henc
  refine (hcuts.2 enc henc _ _ _).mpr ?_
  cases henc
  decide +kernel

end Unagi.Runtime
