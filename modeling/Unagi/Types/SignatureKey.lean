import Unagi.Lib.Delimited
import Unagi.Types.Lattice

/-! # The identity of callables

Elements of the lattice are one if their keys are. The key of a signature has the kinds, defaults
and types of the parameters, the other types and the effects, and these can be read back from it;
the names of the parameters it does not have. -/

namespace Unagi.Types

open Lib

inductive ParamKind where
  | posOnly | posOrKw | kwOnly
deriving DecidableEq

structure Param (T : Type) where
  name : String
  type : T
  kind : ParamKind
  hasDefault : Bool
deriving DecidableEq

structure Signature (T : Type) where
  params : List (Param T)
  star : Option T
  starStar : Option T
  ret : T
  mayRaise : Bool
  mayYield : Bool
deriving DecidableEq

/-- What an element is built from, beside its bits; `T` are the elements. -/
inductive Node (T : Type) where
  | leaf (kind : Kind)
  | named (proto : Bool) (name : List Char)
  | list (elems : List T)
  | set (elems : List T)
  | dict (key value : T)
  | tuple (elems : List T) (variadic : Bool)
  | union (elems : List T)
  | callable (sig : Signature T)

def ParamKind.index : ParamKind → Nat
  | .posOnly => 0
  | .posOrKw => 1
  | .kwOnly => 2
def Param.writeKey (p : Param (List Char)) : List Char :=
  Char.ofNat ('0'.toNat + p.kind.index) :: (if p.hasDefault then ['='] else []) ++ p.type ++ [';']
def Signature.writeKey (s : Signature (List Char)) : List Char :=
  s.params.flatMap Param.writeKey ++ (s.star.elim [] fun t => '*' :: t) ++
    (s.starStar.elim [] fun t => '*' :: '*' :: t) ++ '-' :: '>' :: s.ret ++
    (if s.mayRaise then ['!'] else []) ++ if s.mayYield then ['~'] else []

def Node.kind {T : Type} : Node T → Kind
  | .leaf kind => kind
  | .named proto _ => if proto then .proto else .cls
  | .list _ => .list
  | .set _ => .set
  | .dict _ _ => .dict
  | .tuple _ _ => .tuple
  | .union _ => .union
  | .callable _ => .callable

/-- What the key of an element has behind the kind and the bits; the parts are given by their keys. -/
def Node.body : Node (List Char) → List Char
  | .leaf _ => []
  | .named _ name => ':' :: name
  | .list elems | .set elems => '<' :: joined ',' elems ++ ['>']
  | .dict key value => '<' :: key ++ ',' :: value ++ ['>']
  | .tuple elems variadic =>
    '(' :: joined ',' elems ++ (if variadic then ['.', '.', '.'] else []) ++ [')']
  | .union elems => '\x7b' :: joined '|' elems ++ ['\x7d']
  | .callable sig => '[' :: sig.writeKey ++ [']']

def Node.writeKey (r : Refine) (n : Node (List Char)) : List Char := headKey n.kind r ++ n.body
def marks : List Char := [',', '>', ')', '|', '\x7d', ']', ';', '*', '-', '!', '~']
def Param.unnamed {T : Type} (p : Param T) : Param T := { p with name := "" }
def Signature.unnamed {T : Type} (s : Signature T) : Signature T :=
  { s with params := s.params.map Param.unnamed }
def Signature.types {T : Type} (s : Signature T) : List T :=
  s.params.map Param.type ++ s.star.toList ++ s.starStar.toList ++ [s.ret]

def Node.parts {T : Type} : Node T → List T
  | .leaf _ | .named _ _ => []
  | .list elems | .set elems | .tuple elems _ | .union elems => elems
  | .dict key value => [key, value]
  | .callable sig => sig.types

/-- A leaf has no parts by its kind. The name of a class may be a dotted path, in which no mark
stands and which does not end in a dot. -/
def Node.Valid {T : Type} : Node T → Prop
  | .leaf kind => kind = .never ∨ kind = .dyn ∨ ∃ a, kind = .atom a
  | .named _ name => (∀ c ∈ name, c ∉ marks) ∧ '.' ∉ name.getLast?
  | _ => True

inductive TypeKey : List Char → Prop
  | mk (n : Node (List Char)) (r : Refine) (valid : n.Valid) (parts : ∀ k ∈ n.parts, TypeKey k) :
      TypeKey (n.writeKey r)

/-- A mark or the dots of a variadic tuple. -/
def Ends (r : List Char) : Prop :=
  (∀ c ∈ r.head?, c ∈ marks) ∨ ∃ l, r = '.' :: '.' :: '.' :: ')' :: l
theorem ends_cons {c : Char} (h : c ∈ marks) (r : List Char) : Ends (c :: r) := by
  refine .inl fun a ha => ?_
  cases ha
  exact h

theorem name_append {x y r r' : List Char} (hx : ∀ c ∈ x, c ∉ marks) (hy : ∀ c ∈ y, c ∉ marks)
    (hlast : '.' ∉ x.getLast?) (hlast' : '.' ∉ y.getLast?) (hr : Ends r) (hr' : Ends r')
    (h : x ++ r = y ++ r') : x = y ∧ r = r' := by
  -- the rest of a longer name begins like an end: with a mark, or up to three of the dots
  have hrest : ∀ {x z r r' : List Char}, (∀ c ∈ x ++ z, c ∉ marks) → '.' ∉ (x ++ z).getLast? →
      Ends r → r = z ++ r' → z = [] := by
    rintro x (_ | ⟨c,z⟩) r r' hx hlast hr rfl
    · rfl
    · have hz : ∀ a ∈ c :: z, a ∉ marks := fun a ha => hx a (List.mem_append_right x ha)
      rw [List.getLast?_append_of_ne_nil _ (List.cons_ne_nil c z)] at hlast
      rcases hr with hr | ⟨l,hr⟩
      · exact absurd (hr c rfl) (hz c List.mem_cons_self)
      · rcases z with _ | ⟨c₁,_ | ⟨c₂,_ | ⟨c₃,z⟩⟩⟩ <;>
          simp only [List.cons_append,List.nil_append,List.cons.injEq] at hr
        · exact absurd (by rw [hr.1]; rfl) hlast
        · exact absurd (by rw [hr.2.1]; rfl) hlast
        · exact absurd (by rw [hr.2.2.1]; rfl) hlast
        · exact absurd (by rw [hr.2.2.2.1]; decide) (hz c₃ (by simp))
  rcases List.append_eq_append_iff.mp h with ⟨z,rfl,hz⟩ | ⟨z,rfl,hz⟩
  · obtain rfl := hrest hy hlast' hr hz
    exact ⟨(List.append_nil x).symm,hz⟩
  · obtain rfl := hrest hx hlast hr' hz
    exact ⟨List.append_nil y,hz.symm⟩

theorem kind_eq_of_char {k k' : Kind}
    (h : Char.ofNat ('A'.toNat + k.index) = Char.ofNat ('A'.toNat + k'.index)) : k = k' := by
  let kinds : List Kind := [.never,.atom .none,.atom .bool,.atom .int,.atom .float,
    .atom .complex,.atom .str,.atom .bytes,.cls,.list,.tuple,.dict,.set,.callable,.union,
    .proto,.dyn]
  have hinv : ∀ k : Kind, kinds.getD ((Char.ofNat ('A'.toNat + k.index)).toNat - 'A'.toNat) .dyn = k := by
    intro k
    cases k with
    | atom a => cases a <;> rfl
    | _ => rfl
  rw [← hinv k,h,hinv k']

theorem kind_char_ne (k : Kind) (c : Char)
    (h : c ∈ '#' :: '=' :: '.' :: marks) : Char.ofNat ('A'.toNat + k.index) ≠ c := by
  have hall : Char.ofNat ('A'.toNat + k.index) ∉ '#' :: '=' :: '.' :: marks := by
    cases k with
    | atom a => cases a <;> decide
    | _ => decide
  exact fun he => hall (he ▸ h)

theorem refine_eq_of_char {r r' : Refine}
    (h : Char.ofNat ('0'.toNat + r.toNat) = Char.ofNat ('0'.toNat + r'.toNat)) : r = r' := by
  obtain ⟨a,b,c,d⟩ := r
  obtain ⟨a',b',c',d'⟩ := r'
  revert a b c d a' b' c' d'
  decide +kernel

theorem headKey_append {k k' : Kind} {r r' : Refine} {x x' : List Char} (hx : '#' ∉ x.head?)
    (hx' : '#' ∉ x'.head?) (h : headKey k r ++ x = headKey k' r' ++ x') :
    k = k' ∧ r = r' ∧ x = x' := by
  obtain ⟨hk,hrest⟩ := List.cons.inj h
  refine ⟨kind_eq_of_char hk,?_⟩
  split at hrest
  · split at hrest
    · rename_i hr hr'
      exact ⟨hr.trans hr'.symm,hrest⟩
    · exact absurd (by rw [show x = '#' :: _ from hrest]; rfl) hx
  · split at hrest
    · exact absurd (by rw [show x' = '#' :: _ from hrest.symm]; rfl) hx'
    · obtain ⟨hr,hrest⟩ := List.cons.inj (List.cons.inj hrest).2
      exact ⟨refine_eq_of_char hr,hrest⟩

theorem TypeKey.start {k : List Char} (h : TypeKey k) :
    ∃ (kind : Kind) (l : List Char), k = Char.ofNat ('A'.toNat + kind.index) :: l := by
  obtain ⟨n,r,-,-⟩ := h
  exact ⟨n.kind,_,rfl⟩
theorem TypeKey.ne_cons {k : List Char} (h : TypeKey k) {c : Char} (hc : c ∈ '#' :: '=' :: '.' :: marks)
    (l l' : List Char) : c :: l ≠ k ++ l' := by
  obtain ⟨kind,rest,rfl⟩ := h.start
  intro heq
  exact kind_char_ne kind c hc (List.cons.inj heq).1.symm

/-! ## Signatures -/

section
variable {r r' : List Char}

theorem ParamKind.eq_of_char {k k' : ParamKind}
    (h : Char.ofNat ('0'.toNat + k.index) = Char.ofNat ('0'.toNat + k'.index)) : k = k' := by
  revert k k'
  rintro ⟨⟩ ⟨⟩ <;> decide

theorem default_append {d d' : Bool} {t t' : List Char} (ht : TypeKey t) (ht' : TypeKey t')
    (h : (if d then ['='] else []) ++ (t ++ r) = (if d' then ['='] else []) ++ (t' ++ r')) :
    d = d' ∧ t ++ r = t' ++ r' := by
  cases d <;> cases d'
  · exact ⟨rfl,h⟩
  · exact absurd h.symm (ht.ne_cons (by decide) _ _)
  · exact absurd h (ht'.ne_cons (by decide) _ _)
  · exact ⟨rfl,(List.cons.inj h).2⟩

theorem params_append {ps ps' : List (Param (List Char))}
    (hps : ∀ p ∈ ps, TypeKey p.type ∧ Readable TypeKey Ends p.type)
    (hps' : ∀ p ∈ ps', TypeKey p.type) (hr : ∃ c l, r = c :: l ∧ (c = '*' ∨ c = '-'))
    (hr' : ∃ c l, r' = c :: l ∧ (c = '*' ∨ c = '-'))
    (h : ps.flatMap Param.writeKey ++ r = ps'.flatMap Param.writeKey ++ r') :
    ps.map Param.unnamed = ps'.map Param.unnamed ∧ r = r' := by
  have hdigit : ∀ (p : Param (List Char)) {c : Char} {l l' : List Char}, (c = '*' ∨ c = '-') →
      c :: l ≠ p.writeKey ++ l' := by
    intro p c l l' hc heq
    have hhead := (List.cons.inj heq).1
    rcases hc with rfl | rfl
    · cases hk : p.kind <;> rw [hk] at hhead <;> exact absurd hhead (by decide)
    · cases hk : p.kind <;> rw [hk] at hhead <;> exact absurd hhead (by decide)
  have hfront : ∀ {r : List Char}, (∃ c l, r = c :: l ∧ (c = '*' ∨ c = '-')) →
      ∀ (p : Param (List Char)) x, r ≠ p.writeKey ++ x := by
    rintro _ ⟨c,l,rfl,hc⟩ p x
    exact hdigit p hc
  refine flatMap_append (fun p hp p' hp' us us' h => ?_) (fun p _ => hfront hr p)
    (fun p _ => hfront hr' p) h
  obtain ⟨htype,hread⟩ := hps p hp
  simp only [Param.writeKey,List.cons_append,List.append_assoc,List.nil_append,List.cons.injEq] at h
  obtain ⟨hdefault,hrest⟩ := default_append htype (hps' p' hp') h.2
  obtain ⟨heq,hbehind⟩ := hread _ (hps' p' hp') _ _ (ends_cons (by decide) _)
    (ends_cons (by decide) _) hrest
  rw [Param.unnamed,Param.unnamed,ParamKind.eq_of_char h.1,hdefault,heq]
  exact ⟨rfl,(List.cons.inj hbehind).2⟩

theorem starStar_append {b b' : Option (List Char)} (hb : ∀ t ∈ b, Readable TypeKey Ends t)
    (hb' : ∀ t ∈ b', TypeKey t)
    (h : (b.elim [] fun t => '*' :: '*' :: t) ++ '-' :: r =
      (b'.elim [] fun t => '*' :: '*' :: t) ++ '-' :: r') : b = b' ∧ r = r' := by
  cases b with
  | none =>
    cases b' with
    | none => exact ⟨rfl,(List.cons.inj h).2⟩
    | some t' => exact absurd (List.cons.inj h).1 (by decide)
  | some t =>
    cases b' with
    | none => exact absurd (List.cons.inj h).1 (by decide)
    | some t' =>
      obtain ⟨rfl,hrest⟩ := hb t rfl t' (hb' t' rfl) _ _ (ends_cons (by decide) _)
        (ends_cons (by decide) _) (List.cons.inj (List.cons.inj h).2).2
      exact ⟨rfl,(List.cons.inj hrest).2⟩

theorem stars_append {a a' b b' : Option (List Char)}
    (ha : ∀ t ∈ a, TypeKey t ∧ Readable TypeKey Ends t) (ha' : ∀ t ∈ a', TypeKey t)
    (hb : ∀ t ∈ b, Readable TypeKey Ends t) (hb' : ∀ t ∈ b', TypeKey t)
    (h : (a.elim [] fun t => '*' :: t) ++ ((b.elim [] fun t => '*' :: '*' :: t) ++ '-' :: r) =
      (a'.elim [] fun t => '*' :: t) ++ ((b'.elim [] fun t => '*' :: '*' :: t) ++ '-' :: r')) :
    a = a' ∧ b = b' ∧ r = r' := by
  have hends : ∀ (b : Option (List Char)) r, Ends ((b.elim [] fun t => '*' :: '*' :: t) ++ '-' :: r) := by
    intro b r
    cases b with
    | none => exact ends_cons (by decide) _
    | some t => exact ends_cons (by decide) _
  -- one star is followed by a key, and two stars are not
  have hone : ∀ {t : List Char} {b : Option (List Char)} {l r : List Char}, TypeKey t →
      (b.elim [] fun t => '*' :: '*' :: t) ++ '-' :: r ≠ '*' :: (t ++ l) := by
    intro t b l r ht heq
    cases b with
    | none => exact absurd (List.cons.inj heq).1 (by decide)
    | some t' => exact ht.ne_cons (by decide) _ _ (List.cons.inj heq).2
  cases a with
  | none =>
    cases a' with
    | none => exact ⟨rfl,starStar_append hb hb' h⟩
    | some t' => exact absurd h (hone (ha' t' rfl))
  | some t =>
    cases a' with
    | none => exact absurd h.symm (hone (ha t rfl).1)
    | some t' =>
      obtain ⟨rfl,hrest⟩ := (ha t rfl).2 t' (ha' t' rfl) _ _ (hends b r) (hends b' r')
        (List.cons.inj h).2
      exact ⟨rfl,starStar_append hb hb' hrest⟩

theorem effects_append {x y x' y' : Bool}
    (h : (if x then ['!'] else []) ++ ((if y then ['~'] else []) ++ ']' :: r) =
      (if x' then ['!'] else []) ++ ((if y' then ['~'] else []) ++ ']' :: r')) :
    x = x' ∧ y = y' ∧ r = r' := by
  cases x <;> cases y <;> cases x' <;> cases y' <;> simp_all

theorem Signature.writeKey_append {s s' : Signature (List Char)}
    (hs : ∀ t ∈ s.types, TypeKey t ∧ Readable TypeKey Ends t) (hs' : ∀ t ∈ s'.types, TypeKey t)
    (h : s.writeKey ++ ']' :: r = s'.writeKey ++ ']' :: r') : s.unnamed = s'.unnamed ∧ r = r' := by
  obtain ⟨ps,a,b,t,x,y⟩ := s
  obtain ⟨ps',a',b',t',x',y'⟩ := s'
  simp only [types,List.mem_append,List.mem_map,Option.mem_toList,List.mem_singleton] at hs hs'
  simp only [writeKey,List.append_assoc,List.cons_append] at h
  have hstart : ∀ (a b : Option (List Char)) l, ∃ c l', (a.elim [] fun t => '*' :: t) ++
      ((b.elim [] fun t => '*' :: '*' :: t) ++ '-' :: l) = c :: l' ∧ (c = '*' ∨ c = '-') := by
    intro a b l
    cases a with
    | some t => exact ⟨_,_,rfl,.inl rfl⟩
    | none =>
      cases b with
      | some t => exact ⟨_,_,rfl,.inl rfl⟩
      | none => exact ⟨_,_,rfl,.inr rfl⟩
  obtain ⟨hps,hrest⟩ := params_append (fun p hp => hs _ (.inl (.inl (.inl ⟨p,hp,rfl⟩))))
    (fun p hp => hs' _ (.inl (.inl (.inl ⟨p,hp,rfl⟩)))) (hstart _ _ _) (hstart _ _ _) h
  obtain ⟨rfl,rfl,hrest⟩ := stars_append (fun t ht => hs t (.inl (.inl (.inr ht))))
    (fun t ht => hs' t (.inl (.inl (.inr ht)))) (fun t ht => (hs t (.inl (.inr ht))).2)
    (fun t ht => hs' t (.inl (.inr ht))) hrest
  have hends : ∀ (x y : Bool) l,
      Ends ((if x then ['!'] else []) ++ ((if y then ['~'] else []) ++ ']' :: l)) := by
    intro x y l
    cases x <;> cases y <;> exact ends_cons (by decide) _
  obtain ⟨rfl,heffects⟩ := (hs t (.inr rfl)).2 t' (hs' t' (.inr rfl)) _ _ (hends x y r)
    (hends x' y' r') (List.cons.inj hrest).2
  obtain ⟨rfl,rfl,rfl⟩ := effects_append heffects
  exact ⟨by simp only [unnamed,hps],rfl⟩

end

/-! ## Elements -/

theorem Node.hash_not_mem_body {n : Node (List Char)} {r : List Char} (hr : Ends r) :
    '#' ∉ (n.body ++ r).head? := by
  cases n with
  | leaf kind =>
    rcases hr with hr | ⟨l,rfl⟩
    · exact fun h => absurd (hr _ h) (by decide)
    · simp [body]
  | _ => simp [body]
theorem TypeKey.closes {s e : Char} {l : List Char} (hne : s ≠ e) (he : e ∈ '#' :: '=' :: '.' :: marks)
    (hends : ∀ r, Ends (e :: l ++ r)) : Closes TypeKey Ends s (e :: l) :=
  ⟨fun _ _ heq => hne (List.cons.inj heq).1,hends,fun _ ht _ => ht.ne_cons he _⟩
theorem Signature.writeKey_unnamed (s : Signature (List Char)) : s.unnamed.writeKey = s.writeKey := by
  have hparams : (s.params.map Param.unnamed).flatMap Param.writeKey =
      s.params.flatMap Param.writeKey := List.flatMap_map _ _ _
  rw [writeKey,unnamed,hparams,writeKey]

def Kind.shape : Kind → Nat
  | .never | .atom _ | .dyn => 0
  | .cls | .proto => 1
  | .list => 2
  | .set => 3
  | .dict => 4
  | .tuple => 5
  | .union => 6
  | .callable => 7

def Node.shape {T : Type} : Node T → Nat
  | .leaf _ => 0
  | .named _ _ => 1
  | .list _ => 2
  | .set _ => 3
  | .dict _ _ => 4
  | .tuple _ _ => 5
  | .union _ => 6
  | .callable _ => 7

theorem Node.shape_eq {T : Type} {n : Node T} (h : n.Valid) : n.kind.shape = n.shape := by
  cases n with
  | leaf kind => rcases h with rfl | rfl | ⟨a,rfl⟩ <;> rfl
  | named proto name => cases proto <;> rfl
  | _ => rfl

theorem TypeKey.readable {k : List Char} (h : TypeKey k) : Readable TypeKey Ends k := by
  induction h with
  | mk n bits valid parts ih =>
    intro k' hk' r r' hr hr' heq
    obtain ⟨n',bits',valid',parts'⟩ := hk'
    rw [Node.writeKey,Node.writeKey,List.append_assoc,List.append_assoc] at heq
    obtain ⟨hkind,rfl,hbody⟩ := headKey_append (Node.hash_not_mem_body hr)
      (Node.hash_not_mem_body hr') heq
    suffices n.body = n'.body ∧ r = r' by
      rw [Node.writeKey,Node.writeKey,hkind,this.1]
      exact ⟨rfl,this.2⟩
    have hclose : ∀ {s e : Char}, s ≠ e → s ∈ marks → e ∈ marks → ∀ {ts ts' : List (List Char)},
        (∀ t ∈ ts, TypeKey t ∧ Readable TypeKey Ends t) → (∀ t ∈ ts', TypeKey t) →
        joined s ts ++ e :: r = joined s ts' ++ e :: r' → ts = ts' ∧ r = r' := by
      intro s e hne hs he ts ts' hts hts' h
      have hend : Closes TypeKey Ends s [e] :=
        TypeKey.closes hne (by simp [he]) (ends_cons he)
      obtain ⟨hlist,hrest⟩ := joined_append (ends_cons hs) hend hend hts hts' h
      exact ⟨hlist,(List.cons.inj hrest).2⟩
    have hparts : ∀ t ∈ n.parts, TypeKey t ∧ Readable TypeKey Ends t :=
      fun t ht => ⟨parts t ht,ih t ht⟩
    have hshape : n.shape = n'.shape := by rw [← Node.shape_eq valid,hkind,Node.shape_eq valid']
    cases n <;> cases n' <;> first | (simp [Node.shape] at hshape; done) | skip
    case leaf.leaf => exact ⟨rfl,hbody⟩
    case named.named proto name proto' name' =>
      obtain ⟨hname,hrest⟩ := name_append valid.1 valid'.1 valid.2 valid'.2 hr hr'
        (List.cons.inj hbody).2
      exact ⟨congrArg (':' :: ·) hname,hrest⟩
    case list.list elems elems' | set.set elems elems' | union.union elems elems' =>
      simp only [Node.body,List.cons_append,List.append_assoc,List.nil_append] at hbody
      obtain ⟨rfl,hrest⟩ := hclose (by decide) (by decide) (by decide) hparts parts'
        (List.cons.inj hbody).2
      exact ⟨rfl,hrest⟩
    case dict.dict key value key' value' =>
      simp only [Node.body,List.cons_append,List.append_assoc,List.nil_append] at hbody
      obtain ⟨rfl,hvalue⟩ := (hparts key (by simp [Node.parts])).2 key'
        (parts' key' (by simp [Node.parts])) _ _ (ends_cons (by decide) _) (ends_cons (by decide) _)
        (List.cons.inj hbody).2
      obtain ⟨rfl,hrest⟩ := (hparts value (by simp [Node.parts])).2 value'
        (parts' value' (by simp [Node.parts])) _ _ (ends_cons (by decide) _)
        (ends_cons (by decide) _) (List.cons.inj hvalue).2
      exact ⟨rfl,(List.cons.inj hrest).2⟩
    case tuple.tuple elems variadic elems' variadic' =>
      simp only [Node.body,List.cons_append,List.append_assoc,List.nil_append] at hbody
      have hend : ∀ v : Bool, Closes TypeKey Ends ',' (if v then ['.','.','.',')'] else [')']) := by
        rintro ⟨⟩
        · exact TypeKey.closes (by decide) (by decide) (ends_cons (by decide))
        · exact TypeKey.closes (by decide) (by decide) fun r => .inr ⟨r,rfl⟩
      have htail : ∀ (v : Bool) r, (if v then ['.','.','.'] else []) ++ ')' :: r =
          (if v then ['.','.','.',')'] else [')']) ++ r := by
        rintro ⟨⟩ r <;> rfl
      rw [htail,htail] at hbody
      obtain ⟨rfl,hrest⟩ := joined_append (ends_cons (by decide)) (hend variadic) (hend variadic')
        hparts parts' (List.cons.inj hbody).2
      cases variadic <;> cases variadic' <;> simp_all
    case callable.callable sig sig' =>
      simp only [Node.body,List.cons_append,List.append_assoc,List.nil_append] at hbody
      obtain ⟨hsig,hrest⟩ := Signature.writeKey_append hparts parts' (List.cons.inj hbody).2
      refine ⟨?_,hrest⟩
      rw [Node.body,Node.body,← sig.writeKey_unnamed,hsig,sig'.writeKey_unnamed]

/-! ## Call compatibility -/

abbrev Element := { k : List Char // TypeKey k }

namespace Signature
variable (s t : Signature Element)

def keys : Signature (List Char) :=
  ⟨s.params.map fun p => ⟨p.name, p.type.1, p.kind, p.hasDefault⟩, s.star.map Subtype.val,
    s.starStar.map Subtype.val, s.ret.1, s.mayRaise, s.mayYield⟩
def callableKey : List Char := (Node.callable s.keys).writeKey .plain
def paramEqual (p q : Param Element) : Bool :=
  p.kind = q.kind && p.hasDefault = q.hasDefault && p.type = q.type &&
    (p.kind = .posOnly || p.name = q.name)
def sigShapeEqual : Bool :=
  s.params.length = t.params.length && s.ret = t.ret && s.star = t.star && s.starStar = t.starStar &&
    (s.params.zip t.params).all fun p => paramEqual p.1 p.2

/-- The parameters that a caller can pass by keyword have the same names. -/
def keywordNames : Bool :=
  (s.params.zip t.params).all fun p => p.1.kind = .posOnly || p.1.name = p.2.name

def Agree : Prop :=
  s.sigShapeEqual t = true ∧ s.mayRaise = t.mayRaise ∧ s.mayYield = t.mayYield

/-- `Callable` on an interner that has the signatures of a table: the first one with the key. -/
def callable (table : List (Signature Element)) : Signature Element × List (Signature Element) :=
  match table.find? fun first => first.callableKey = s.callableKey with
  | some first => (first, table)
  | none => (s, table ++ [s])

/-- The signature that a lookup in a stub gives, after lookups of others. -/
def lookup (earlier : List (Signature Element)) : Signature Element :=
  (s.callable (earlier.foldl (fun table s => (s.callable table).2) [])).1

variable {s t}

theorem keys_injective : Function.Injective keys := by
  intro s t h
  have hparam : Function.Injective fun p : Param Element =>
      (⟨p.name,p.type.1,p.kind,p.hasDefault⟩ : Param (List Char)) := by
    rintro ⟨n,e,k,d⟩ ⟨n',e',k',d'⟩ hpq
    simpa [Subtype.ext_iff] using hpq
  obtain ⟨ps,a,b,e,x,y⟩ := s
  obtain ⟨ps',a',b',e',x',y'⟩ := t
  simp only [keys,Signature.mk.injEq] at h
  obtain ⟨hps,ha,hb,he,rfl,rfl⟩ := h
  rw [List.map_injective_iff.mpr hparam hps,Option.map_injective Subtype.val_injective ha,
    Option.map_injective Subtype.val_injective hb,Subtype.ext he]

theorem callableKey_eq_iff : s.callableKey = t.callableKey ↔ s.unnamed = t.unnamed := by
  have htypes : ∀ (s : Signature Element), ∀ k ∈ s.keys.types, TypeKey k := by
    intro s k hk
    simp only [keys,types,List.map_map,List.mem_append,List.mem_map,Option.mem_toList,
      Option.map_eq_some_iff,List.mem_singleton] at hk
    rcases hk with ((⟨p,-,rfl⟩ | ⟨e,-,rfl⟩) | ⟨e,-,rfl⟩) | rfl
    · exact p.type.2
    · exact e.2
    · exact e.2
    · exact s.ret.2
  have hunnamed : ∀ s : Signature Element, s.unnamed.keys = s.keys.unnamed := by
    intro s
    simp [unnamed,keys,Param.unnamed,Function.comp_def]
  constructor
  · intro h
    have hbody := (List.cons.inj (List.append_cancel_left h)).2
    have hkeys := (writeKey_append (fun k hk => ⟨htypes s k hk,(htypes s k hk).readable⟩) (htypes t)
      hbody).1
    rw [← hunnamed,← hunnamed] at hkeys
    exact keys_injective hkeys
  · intro h
    rw [callableKey,callableKey,Node.writeKey,Node.writeKey,Node.body,Node.body,
      ← s.keys.writeKey_unnamed,← hunnamed,h,hunnamed,t.keys.writeKey_unnamed]
    rfl

theorem params_agree_iff {ps qs : List (Param Element)} :
    (ps.map Param.unnamed = qs.map Param.unnamed ∧
      (ps.zip qs).all (fun p => p.1.kind = .posOnly || p.1.name = p.2.name) = true) ↔
    ps.length = qs.length ∧ (ps.zip qs).all (fun p => paramEqual p.1 p.2) = true := by
  induction ps generalizing qs with
  | nil => cases qs <;> simp
  | cons p ps ih =>
    cases qs with
    | nil => simp
    | cons q qs =>
      have ih := @ih qs
      simp only [List.map_cons,List.cons.injEq,List.zip_cons_cons,List.all_cons,Bool.and_eq_true,
        List.length_cons,Nat.add_right_cancel_iff] at ih ⊢
      simp only [Param.unnamed,Param.mk.injEq,paramEqual,Bool.and_eq_true,decide_eq_true_eq]
      tauto

theorem agree_iff : s.Agree t ↔ s.unnamed = t.unnamed ∧ s.keywordNames t = true := by
  have hparams := @params_agree_iff s.params t.params
  obtain ⟨ps,a,b,e,x,y⟩ := s
  obtain ⟨ps',a',b',e',x',y'⟩ := t
  simp only [Agree,sigShapeEqual,Bool.and_eq_true,decide_eq_true_eq,unnamed,Signature.mk.injEq,
    keywordNames] at hparams ⊢
  tauto

theorem find?_callables (earlier table : List (Signature Element)) (k : List Char) :
    (earlier.foldl (fun table s => (s.callable table).2) table).find? (·.callableKey = k) =
      (table ++ earlier).find? (·.callableKey = k) := by
  induction earlier generalizing table with
  | nil => rw [List.foldl_nil,List.append_nil]
  | cons s earlier ih =>
    rw [List.foldl_cons,ih,callable]
    split
    · rename_i first hfirst
      rw [List.find?_append,List.find?_append,List.find?_cons]
      by_cases hk : s.callableKey = k
      · rw [← hk,hfirst]
        rfl
      · simp [hk]
    · rw [List.append_assoc]
      rfl

theorem lookup_eq (earlier : List (Signature Element)) :
    s.lookup earlier = (earlier.find? fun first => first.unnamed = s.unnamed).getD s := by
  have hfind := find?_callables earlier [] s.callableKey
  rw [List.nil_append] at hfind
  simp only [callableKey_eq_iff] at hfind
  rw [lookup,callable]
  simp only [callableKey_eq_iff,hfind]
  split
  · rename_i first hfirst
    rw [hfirst]
    rfl
  · rename_i hnone
    rw [hnone]
    rfl

/-- Two signatures with one element look the same to a caller if and only if, where they differ in
names alone, the keyword parameters do not; and so for a lookup and the first one declared. -/
theorem callable_agrees_iff (s t : Signature Element) (earlier : List (Signature Element)) :
    ((s.callableKey = t.callableKey → s.Agree t) ↔
      (s.unnamed = t.unnamed → s.keywordNames t = true)) ∧
    ((s.lookup earlier).Agree s ↔ ∀ first,
      earlier.find? (fun first => first.unnamed = s.unnamed) = some first →
        first.keywordNames s = true) := by
  constructor
  · rw [callableKey_eq_iff,agree_iff]
    exact ⟨fun h hst => (h hst).2,fun h hst => ⟨hst,h hst⟩⟩
  · rw [lookup_eq,agree_iff]
    cases hfind : earlier.find? fun first => first.unnamed = s.unnamed with
    | none =>
      have hself : s.keywordNames s = true := by
        unfold keywordNames
        induction s.params with
        | nil => rfl
        | cons p ps ih => simp [ih]
      simp [hself]
    | some first =>
      have hsame : first.unnamed = s.unnamed := by simpa using List.find?_some hfind
      simp [hsame]

/-- `f(x: int) -> int` and `g(y: int) -> int` are one element, and the lookup of `f` after that of
`g` gives the parameter of `g`. -/
theorem renamed_parameter_one_element :
    (let int : Element := ⟨headKey (.atom .int) .plain,by
       simpa [Node.writeKey,Node.kind,Node.body] using
         TypeKey.mk (.leaf (.atom .int)) .plain (.inr (.inr ⟨_,rfl⟩)) (by simp [Node.parts])⟩
     let f : Signature Element := ⟨[⟨"x",int,.posOrKw,false⟩],none,none,int,false,false⟩
     let g : Signature Element := ⟨[⟨"y",int,.posOrKw,false⟩],none,none,int,false,false⟩
     f.callableKey = g.callableKey ∧ f.sigShapeEqual g = false ∧
      (f.lookup [g]).params.map Param.name = ["y"]) := by
  decide +kernel

end Signature
end Unagi.Types
