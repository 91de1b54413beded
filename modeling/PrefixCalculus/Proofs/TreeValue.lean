import PrefixCalculus.Proofs.Encoding
import PrefixCalculus.Proofs.Walking
import PrefixCalculus.Term.Value
set_option autoImplicit false

/-!
A walk over the flat form of a term finds the value of the term.
-/

namespace PrefixCalculus

abbrev Enter := FunctionId → List Float → Environment → Option Float

namespace Enter

variable [SpecialFunctions]

def Le (e e' : Enter) : Prop :=
  ∀ f values env v, e f values env = some v → e' f values env = some v

def byWalk (depth : Nat) : Enter := fun f values env =>
  match env.function? f with
  | none => some nan
  | some function =>
    if function.argc.toNat ≠ values.length ∨ function.body.isNull then some nan
    else (walkAt depth function.body.nodes values env 0).map Walk.value

theorem byWalk_mono {depth more : Nat} (h : depth ≤ more) : Le (byWalk depth) (byWalk more) := by
  intro f values env v hv
  unfold byWalk at hv ⊢
  split at hv
  · exact hv
  · split at hv
    · rename_i hbad
      rwa [if_pos hbad]
    · rename_i hgood
      rw [if_neg hgood]
      obtain ⟨w, hw, hv⟩ := Option.map_eq_some_iff.1 hv
      exact Option.map_eq_some_iff.2 ⟨w, walkAt_mono h _ _ _ _ _ hw, hv⟩

end Enter

namespace LoopRange

theorem takeOnto_eq (n : Nat) : ∀ (r : LoopRange) (taken : List Int64),
    (r.takeOnto n taken).1 = taken.reverse ++ (r.takeOnto n []).1 := by
  induction n with
  | zero => intro r taken; simp [takeOnto]
  | succ n ih =>
    intro r taken
    rw [takeOnto, takeOnto]
    split
    · simp
    · rename_i i r' _
      rw [ih r' (i :: taken), ih r' [i]]
      simp

theorem takeOnto_none {r : LoopRange} (h : r.next? = none) (n : Nat) : (r.takeOnto n []).1 = [] := by
  cases n with
  | zero => rfl
  | succ n => simp [takeOnto, h]

theorem takeOnto_some {r r' : LoopRange} {i : Int64} (h : r.next? = some (i, r')) (n : Nat) :
    (r.takeOnto (n + 1) []).1 = i :: (r'.takeOnto n []).1 := by
  simp only [takeOnto, h]
  rw [takeOnto_eq]
  rfl

end LoopRange

namespace Walk

/-- What the step finds at a position is what `value` says, and it ends at `stop`. -/
def Finds (s : Step) (pos stop : Nat) (value : Environment → Option Float) : Prop :=
  ∀ env w, s env pos = some w → value env = some w.value ∧ w.pos = stop ∧ w.env = env

def Meets (s : Step) (pos stop : Nat) (value : Environment → Option Float) : Prop :=
  ∀ env v, value env = some v → s env pos = some ⟨v, stop, env⟩

theorem iterate_finds {s : Step} {start stop : Nat} {value : Environment → Option Float}
    (h : Finds s start stop value) {kind : Fold} {address : Address} (env : Environment)
    {count : Nat} : ∀ {range : LoopRange} {acc : Float} {at_ : Environment} {r : Float × Environment},
      (∀ x, at_.setValue address x = env.setValue address x) →
      iterate (fun env => s env start) kind address count range acc at_ = some r →
      (range.takeOnto count []).1.foldlM
        (fun acc i => (value (env.setValue address (ofPosition i))).map (kind.join acc)) acc
          = some r.1 := by
  induction count with
  | zero => intro range acc at_ r _ hr; cases hr; rfl
  | succ count ih =>
    intro range acc at_ r hat hr
    rw [iterate] at hr
    split at hr
    · rename_i hnext
      cases hr
      rw [LoopRange.takeOnto_none hnext]
      rfl
    · rename_i i range' hnext
      obtain ⟨w, hw, hr⟩ := bind_eq_some.1 hr
      obtain ⟨hv, -, henv⟩ := h _ _ hw
      rw [hat] at hv henv
      have hrest := ih (fun x => by rw [henv, Environment.setValue_setValue]) hr
      rw [LoopRange.takeOnto_some hnext, List.foldlM_cons, hv]
      exact hrest

theorem iterate_meets {s : Step} {start stop : Nat} {value : Environment → Option Float}
    (h : Meets s start stop value) {kind : Fold} {address : Address} (env : Environment)
    {count : Nat} : ∀ {range : LoopRange} {acc v : Float} (at_ : Environment),
      (∀ x, at_.setValue address x = env.setValue address x) →
      (range.takeOnto count []).1.foldlM
        (fun acc i => (value (env.setValue address (ofPosition i))).map (kind.join acc)) acc
          = some v →
      ∃ after, iterate (fun env => s env start) kind address count range acc at_ = some (v, after) ∧
        ∀ x, after.setValue address x = env.setValue address x := by
  induction count with
  | zero => intro range acc v at_ hat hv; cases hv; exact ⟨at_, rfl, hat⟩
  | succ count ih =>
    intro range acc v at_ hat hv
    rw [iterate]
    split
    · rename_i hnext
      rw [LoopRange.takeOnto_none hnext] at hv
      cases hv
      exact ⟨at_, rfl, hat⟩
    · rename_i i range' hnext
      rw [LoopRange.takeOnto_some hnext, List.foldlM_cons] at hv
      obtain ⟨acc', hacc, hv⟩ := bind_eq_some.1 hv
      obtain ⟨x, hx, rfl⟩ := Option.map_eq_some_iff.1 hacc
      have hw := h _ _ hx
      obtain ⟨after, hrest, hafter⟩ :=
        ih (env.setValue address (ofPosition i)) (fun x => Environment.setValue_setValue ..) hv
      refine ⟨after, ?_, hafter⟩
      rw [hat]
      exact bind_eq_some.2 ⟨_, hw, hrest⟩

section

variable {s : Step} {nodes : Array Node}

section

variable [SpecialFunctions]

theorem unary_finds {op : UnaryOp} {pos stop : Nat} {f : Environment → Option Float}
    (hf : Finds s pos stop f) : Finds (unary s op) pos stop fun env => (f env).map op.apply := by
  intro env w hw
  rw [unary, bind_eq_some] at hw
  obtain ⟨a, ha, hw⟩ := hw
  obtain ⟨hv, hp, he⟩ := hf _ _ ha
  cases hw
  exact ⟨by simp only [hv, Option.map_some], hp, he⟩

theorem unary_meets {op : UnaryOp} {pos stop : Nat} {f : Environment → Option Float}
    (hf : Meets s pos stop f) : Meets (unary s op) pos stop fun env => (f env).map op.apply := by
  intro env v hv
  obtain ⟨x, hx, rfl⟩ := Option.map_eq_some_iff.1 hv
  exact bind_eq_some.2 ⟨_, hf _ _ hx, rfl⟩

theorem binary_finds {op : BinaryOp} {pos mid stop : Nat} {f g : Environment → Option Float}
    (hf : Finds s pos mid f) (hg : Finds s mid stop g) :
    Finds (binary s op) pos stop fun env => do
      let a ← f env
      let b ← g env
      return op.apply a b := by
  intro env w hw
  rw [binary, bind_eq_some] at hw
  obtain ⟨a, ha, hw⟩ := hw
  obtain ⟨hva, rfl, rfl⟩ := hf _ _ ha
  rw [bind_eq_some] at hw
  obtain ⟨b, hb, hw⟩ := hw
  obtain ⟨hvb, hp, he⟩ := hg _ _ hb
  cases hw
  exact ⟨bind_eq_some.2 ⟨_, hva, bind_eq_some.2 ⟨_, hvb, rfl⟩⟩, hp, he⟩

theorem binary_meets {op : BinaryOp} {pos mid stop : Nat} {f g : Environment → Option Float}
    (hf : Meets s pos mid f) (hg : Meets s mid stop g) :
    Meets (binary s op) pos stop fun env => do
      let a ← f env
      let b ← g env
      return op.apply a b := by
  intro env v hv
  rw [bind_eq_some] at hv
  obtain ⟨a, ha, hv⟩ := hv
  rw [bind_eq_some] at hv
  obtain ⟨b, hb, hv⟩ := hv
  cases hv
  exact bind_eq_some.2 ⟨_, hf _ _ ha, bind_eq_some.2 ⟨_, hg _ _ hb, rfl⟩⟩

end

/-- Only the selected one of the two spans has to be known. -/
theorem branch_finds {pos mid : Nat} {c f g : Environment → Option Float} {yes no : Span}
    (hc : Finds s pos mid c) (hyes : Span.at? nodes mid = .ok yes)
    (hno : Span.at? nodes yes.stop = .ok no)
    (hf : ∀ env w, s env yes.bodyStart = some w → f env = some w.value ∧ w.env = env)
    (hg : ∀ env w, s env no.bodyStart = some w → g env = some w.value ∧ w.env = env) :
    Finds (branch nodes s) pos no.stop (fun env => do
      let c ← c env
      if c.isNaN then return nan
      else if c != 0.0 then f env
      else g env) := by
  intro env w hw
  rw [branch, bind_eq_some] at hw
  obtain ⟨a, ha, hw⟩ := hw
  obtain ⟨hv, rfl, rfl⟩ := hc _ _ ha
  simp only [hyes, hno] at hw
  simp only [hv, Option.bind_eq_bind, Option.bind_some]
  split at hw
  · rename_i hnan
    cases hw
    rw [if_pos hnan]
    exact ⟨rfl, rfl, rfl⟩
  · rename_i hnan
    rw [bind_eq_some] at hw
    obtain ⟨b, hb, hw⟩ := hw
    cases hw
    rw [if_neg hnan]
    split at hb
    · rename_i hzero
      obtain ⟨hvb, he⟩ := hf _ _ hb
      exact ⟨by rw [if_pos hzero]; exact hvb, rfl, he⟩
    · rename_i hzero
      obtain ⟨hvb, he⟩ := hg _ _ hb
      exact ⟨by rw [if_neg hzero]; exact hvb, rfl, he⟩

theorem branch_meets {pos mid p q : Nat} {c f g : Environment → Option Float} {yes no : Span}
    (hc : Meets s pos mid c) (hyes : Span.at? nodes mid = .ok yes)
    (hno : Span.at? nodes yes.stop = .ok no) (hf : Meets s yes.bodyStart p f)
    (hg : Meets s no.bodyStart q g) :
    Meets (branch nodes s) pos no.stop (fun env => do
      let c ← c env
      if c.isNaN then return nan
      else if c != 0.0 then f env
      else g env) := by
  intro env v hv
  rw [bind_eq_some] at hv
  obtain ⟨x, hx, hv⟩ := hv
  refine bind_eq_some.2 ⟨_, hc _ _ hx, ?_⟩
  simp only [hyes, hno]
  split at hv
  · rename_i hnan
    cases hv
    rw [if_pos hnan]
    rfl
  · rename_i hnan
    rw [if_neg hnan]
    split at hv
    · rename_i hzero
      rw [if_pos hzero]
      exact bind_eq_some.2 ⟨_, hf _ _ hv, rfl⟩
    · rename_i hzero
      rw [if_neg hzero]
      exact bind_eq_some.2 ⟨_, hg _ _ hv, rfl⟩

theorem loop_finds (hs : Keeps s) {kind : Fold} {address : Address} {pos p q r : Nat}
    {lower upper body : Environment → Option Float} {span : Span}
    (hvar : nodes[pos]? = some (.ref address)) (hl : Finds s (pos + 1) p lower)
    (hu : Finds s p q upper) (hspan : Span.at? nodes q = .ok span)
    (hb : Finds s span.bodyStart r body) :
    Finds (loop nodes s kind) pos span.stop (fun env => do
      let lo ← lower env
      let hi ← upper env
      match LoopRange.ofBounds? lo hi with
      | none => return nan
      | some range =>
        Term.joinRange kind (fun i => body (env.setValue address (ofPosition i))) range) := by
  intro env w hw
  have hkeeps := loop_keeps hs env pos w hw
  simp only [loop, hvar] at hw
  rw [bind_eq_some] at hw
  obtain ⟨a, ha, hw⟩ := hw
  obtain ⟨hva, rfl, rfl⟩ := hl _ _ ha
  rw [bind_eq_some] at hw
  obtain ⟨b, hb', hw⟩ := hw
  obtain ⟨hvb, rfl, henv⟩ := hu _ _ hb'
  simp only [hspan] at hw
  simp only [hva, hvb, Option.bind_eq_bind, Option.bind_some]
  cases hrange : LoopRange.ofBounds? a.value b.value with
  | none =>
    simp only [hrange] at hw
    cases hw
    exact ⟨rfl, rfl, henv⟩
  | some range =>
    simp only [hrange] at hw
    rw [bind_eq_some] at hw
    obtain ⟨⟨acc, after⟩, hr, hw⟩ := hw
    rw [henv, Environment.binding, Option.map_eq_some_iff] at hr
    obtain ⟨r, hr, heq⟩ := hr
    cases heq
    cases hw
    exact ⟨iterate_finds hb a.env (fun _ => rfl) hr, rfl, hkeeps⟩

theorem loop_meets {kind : Fold} {address : Address} {pos p q r : Nat}
    {lower upper body : Environment → Option Float} {span : Span}
    (hvar : nodes[pos]? = some (.ref address)) (hl : Meets s (pos + 1) p lower)
    (hu : Meets s p q upper) (hspan : Span.at? nodes q = .ok span)
    (hb : Meets s span.bodyStart r body) :
    Meets (loop nodes s kind) pos span.stop (fun env => do
      let lo ← lower env
      let hi ← upper env
      match LoopRange.ofBounds? lo hi with
      | none => return nan
      | some range =>
        Term.joinRange kind (fun i => body (env.setValue address (ofPosition i))) range) := by
  intro env v hv
  rw [bind_eq_some] at hv
  obtain ⟨lo, hlo, hv⟩ := hv
  rw [bind_eq_some] at hv
  obtain ⟨hi, hhi, hv⟩ := hv
  simp only [loop, hvar]
  refine bind_eq_some.2 ⟨_, hl _ _ hlo, bind_eq_some.2 ⟨_, hu _ _ hhi, ?_⟩⟩
  simp only [hspan]
  cases hrange : LoopRange.ofBounds? lo hi with
  | none =>
    simp only [hrange] at hv
    cases hv
    rfl
  | some range =>
    simp only [hrange] at hv
    obtain ⟨after, hiter, hafter⟩ := iterate_meets hb env env (fun _ => rfl) hv
    refine bind_eq_some.2 ⟨(v, env), ?_, rfl⟩
    rw [Environment.binding, Option.map_eq_some_iff]
    exact ⟨_, hiter, by simp only [hafter, Environment.setValue_value]⟩

variable [SpecialFunctions]

theorem operands_finds {read : Nat → Except Defect (Term × Nat)} {enter : Enter} {frame : Frame}
    (h : ∀ pos t stop, read pos = .ok (t, stop) → Finds s pos stop (t.valueBy enter frame)) {count : Nat} :
    ∀ {pos stop ts}, Term.decodeOperands read count pos = .ok (ts, stop) →
      ∀ {env values after stop'}, operands s count env pos = some (values, after, stop') →
        Term.valuesBy enter frame ts env = some values ∧ stop' = stop := by
  induction count with
  | zero =>
    intro pos stop ts hts env values after stop' hw
    cases hts
    cases hw
    exact ⟨rfl, rfl⟩
  | succ count ih =>
    intro pos stop ts hts env values after stop' hw
    rw [Term.decodeOperands] at hts
    obtain ⟨⟨t, mid⟩, ht, hts⟩ := Term.exists_of_bind_eq_ok hts
    obtain ⟨⟨rest, stop₂⟩, hrest, hts⟩ := Term.exists_of_bind_eq_ok hts
    cases hts
    rw [operands, bind_eq_some] at hw
    obtain ⟨a, ha, hw⟩ := hw
    obtain ⟨hv, rfl, rfl⟩ := h _ _ _ ht _ _ ha
    rw [bind_eq_some] at hw
    obtain ⟨⟨values', after', stop₃⟩, hr, hw⟩ := hw
    obtain ⟨hvs, rfl⟩ := ih hrest hr
    cases hw
    exact ⟨bind_eq_some.2 ⟨_, hv, bind_eq_some.2 ⟨_, hvs, rfl⟩⟩, rfl⟩

theorem operands_meets {read : Nat → Except Defect (Term × Nat)} {enter : Enter} {frame : Frame}
    (h : ∀ pos t stop, read pos = .ok (t, stop) → Meets s pos stop (t.valueBy enter frame)) {count : Nat} :
    ∀ {pos stop ts}, Term.decodeOperands read count pos = .ok (ts, stop) →
      ∀ {env values}, Term.valuesBy enter frame ts env = some values →
        operands s count env pos = some (values, env, stop) ∧ values.length = count := by
  induction count with
  | zero =>
    intro pos stop ts hts env values hv
    cases hts
    cases hv
    exact ⟨rfl, rfl⟩
  | succ count ih =>
    intro pos stop ts hts env values hv
    rw [Term.decodeOperands] at hts
    obtain ⟨⟨t, mid⟩, ht, hts⟩ := Term.exists_of_bind_eq_ok hts
    obtain ⟨⟨rest, stop₂⟩, hrest, hts⟩ := Term.exists_of_bind_eq_ok hts
    cases hts
    rw [Term.valuesBy, bind_eq_some] at hv
    obtain ⟨v, ht', hv⟩ := hv
    rw [bind_eq_some] at hv
    obtain ⟨vs, hrest', hv⟩ := hv
    cases hv
    obtain ⟨hr, hlen⟩ := ih hrest hrest'
    refine ⟨?_, by rw [List.length_cons, hlen]⟩
    rw [operands, bind_eq_some]
    exact ⟨_, h _ _ _ ht _ _ ht', bind_eq_some.2 ⟨_, hr, rfl⟩⟩

end

variable [SpecialFunctions]

theorem call_finds {depth : Nat} {nodes : Array Node} {frame : Frame} {enter : Enter} {f : FunctionId}
    {argc : UInt32} {pos stop : Nat} {g : Environment → Option (List Float)}
    (he : Enter.Le (Enter.byWalk depth) enter)
    (hg : ∀ {env values after stop'},
      operands (walkAt depth nodes frame) argc.toNat env pos = some (values, after, stop') →
      g env = some values ∧ stop' = stop) :
    Finds (call (walkAt depth nodes frame) (fun body frame env => walkAt depth body frame env 0)
      f argc) pos stop (fun env => do
        let values ← g env
        enter f values env) := by
  intro env w hw
  rw [call, bind_eq_some] at hw
  obtain ⟨⟨values, after, stop'⟩, hargs, hw⟩ := hw
  obtain ⟨hvs, rfl⟩ := hg hargs
  obtain ⟨rfl, hlen⟩ := operands_keeps (walkAt_keeps depth nodes frame) hargs
  suffices h : Enter.byWalk depth f values after = some w.value ∧ w.pos = stop' ∧ w.env = after by
    exact ⟨bind_eq_some.2 ⟨values, hvs, he _ _ _ _ h.1⟩, h.2⟩
  simp only at hw
  unfold Enter.byWalk
  cases hf : after.function? f with
  | none =>
    simp only [hf] at hw
    cases hw
    exact ⟨rfl, rfl, rfl⟩
  | some function =>
    simp only [hf] at hw
    have hargc : (function.argc != argc || function.body.isNull) = true ↔
        function.argc.toNat ≠ values.length ∨ function.body.isNull = true := by
      rw [hlen, Bool.or_eq_true, bne_iff_ne, ne_eq, ne_eq, UInt32.toNat_inj]
    split at hw
    · rename_i hbad
      cases hw
      exact ⟨if_pos (hargc.1 hbad), rfl, rfl⟩
    · rename_i hgood
      rw [bind_eq_some] at hw
      obtain ⟨b, hb, hw⟩ := hw
      have henv := walkAt_keeps _ _ _ _ _ _ hb
      cases hw
      refine ⟨?_, rfl, henv⟩
      simp only [if_neg fun h => hgood (hargc.2 h), hb, Option.map_some]

theorem call_meets {depth more : Nat} {nodes : Array Node} {frame : Frame} {f : FunctionId}
    {argc : UInt32} {pos stop : Nat} {g : Environment → Option (List Float)} (hd : depth ≤ more)
    (hg : ∀ {env values}, g env = some values →
      operands (walkAt more nodes frame) argc.toNat env pos = some (values, env, stop) ∧
        values.length = argc.toNat) :
    Meets (call (walkAt more nodes frame) (fun body frame env => walkAt more body frame env 0)
      f argc) pos stop (fun env => do
        let values ← g env
        Enter.byWalk depth f values env) := by
  intro env v hv
  rw [bind_eq_some] at hv
  obtain ⟨values, hvs, hv⟩ := hv
  obtain ⟨hargs, hlen⟩ := hg hvs
  rw [call, bind_eq_some]
  refine ⟨_, hargs, ?_⟩
  simp only
  unfold Enter.byWalk at hv
  cases hf : env.function? f with
  | none =>
    simp only [hf] at hv
    cases hv
    rfl
  | some function =>
    simp only [hf] at hv
    have hargc : (function.argc != argc || function.body.isNull) = true ↔
        function.argc.toNat ≠ values.length ∨ function.body.isNull = true := by
      rw [hlen, Bool.or_eq_true, bne_iff_ne, ne_eq, ne_eq, UInt32.toNat_inj]
    split at hv
    · rename_i hbad
      cases hv
      exact if_pos (hargc.2 hbad)
    · rename_i hgood
      obtain ⟨w, hw, rfl⟩ := Option.map_eq_some_iff.1 hv
      have henv := walkAt_keeps _ _ _ _ _ _ hw
      have hw := walkAt_mono hd _ _ _ _ _ hw
      simp only [if_neg fun h => hgood (hargc.1 h)]
      exact bind_eq_some.2 ⟨w, hw, by rw [henv]; rfl⟩

end Walk

namespace Term

/-- A term is read at a position, up to another, its operands being read by `read`. -/
inductive Reads (nodes : Array Node) (read : Nat → Except Defect (Term × Nat)) :
    Nat → Term → Nat → Prop
  | literal {pos x} : nodes[pos]? = some (.literal x) → Reads nodes read pos (literal x) (pos + 1)
  | ref {pos a} : nodes[pos]? = some (.ref a) → Reads nodes read pos (ref a) (pos + 1)
  | arg {pos i} : nodes[pos]? = some (.arg i) → Reads nodes read pos (arg i) (pos + 1)
  | unary {pos op t stop} : nodes[pos]? = some (.op (.unary op)) → read (pos + 1) = .ok (t, stop) →
      Reads nodes read pos (unary op t) stop
  | binary {pos op a mid b stop} : nodes[pos]? = some (.op (.binary op)) →
      read (pos + 1) = .ok (a, mid) → read mid = .ok (b, stop) →
      Reads nodes read pos (binary op a b) stop
  | branch {pos c mid yes a p no b q} : nodes[pos]? = some (.op .branch) →
      read (pos + 1) = .ok (c, mid) → Span.at? nodes mid = .ok yes → read yes.bodyStart = .ok (a, p) →
      Span.at? nodes yes.stop = .ok no → read no.bodyStart = .ok (b, q) →
      Reads nodes read pos (branch c a b) no.stop
  | loop {pos kind v lower p upper q span body r} : nodes[pos]? = some (.op (.fold kind)) →
      nodes[pos + 1]? = some (.ref v) → read (pos + 2) = .ok (lower, p) → read p = .ok (upper, q) →
      Span.at? nodes q = .ok span → read span.bodyStart = .ok (body, r) →
      Reads nodes read pos (loop kind v lower upper body) span.stop
  | call {pos f argc args stop} : nodes[pos]? = some (.call f argc) →
      decodeOperands read argc.toNat (pos + 1) = .ok (args, stop) →
      Reads nodes read pos (call f args) stop

theorem reads_of_decodeFrom {nodes : Array Node} {depth pos stop : Nat} {t : Term}
    (h : decodeFrom nodes (depth + 1) pos = .ok (t, stop)) :
    Reads nodes (decodeFrom nodes depth) pos t stop := by
  rw [decodeFrom] at h
  split at h
  · cases h
  · rename_i hn
    cases h
    exact .literal hn
  · rename_i hn
    cases h
    exact .ref hn
  · rename_i hn
    cases h
    exact .arg hn
  · cases h
  · cases h
  · rename_i hn
    obtain ⟨⟨args, p⟩, hargs, h⟩ := exists_of_bind_eq_ok h
    cases h
    exact .call hn hargs
  · rename_i hn
    obtain ⟨⟨a, p⟩, ha, h⟩ := exists_of_bind_eq_ok h
    cases h
    exact .unary hn ha
  · rename_i hn
    obtain ⟨⟨a, p⟩, ha, h⟩ := exists_of_bind_eq_ok h
    obtain ⟨⟨b, q⟩, hb, h⟩ := exists_of_bind_eq_ok h
    cases h
    exact .binary hn ha hb
  · rename_i hn
    obtain ⟨⟨c, p⟩, hc, h⟩ := exists_of_bind_eq_ok h
    obtain ⟨yes, hyes, h⟩ := exists_of_bind_eq_ok h
    obtain ⟨⟨a, q⟩, ha, h⟩ := exists_of_bind_eq_ok h
    obtain ⟨no, hno, h⟩ := exists_of_bind_eq_ok h
    obtain ⟨⟨b, r⟩, hb, h⟩ := exists_of_bind_eq_ok h
    cases h
    exact .branch hn hc hyes ha hno hb
  · rename_i kind hn
    split at h
    · rename_i v hv
      obtain ⟨⟨lower, p⟩, hl, h⟩ := exists_of_bind_eq_ok h
      obtain ⟨⟨upper, q⟩, hu, h⟩ := exists_of_bind_eq_ok h
      obtain ⟨span, hspan, h⟩ := exists_of_bind_eq_ok h
      obtain ⟨⟨body, r⟩, hb, h⟩ := exists_of_bind_eq_ok h
      cases h
      exact .loop hn hv hl hu hspan hb
    · cases h

variable [SpecialFunctions]

section

variable {nodes : Array Node} {frame : Frame} {read : Nat → Except Defect (Term × Nat)}
  {pos stop : Nat} {t : Term}

theorem Reads.finds {depth : Nat} {enter : Enter} (h : Reads nodes read pos t stop)
    (he : Enter.Le (Enter.byWalk depth) enter)
    (ih : ∀ p u q, read p = .ok (u, q) →
      Walk.Finds (walkAt depth nodes frame) p q (u.valueBy enter frame)) :
    Walk.Finds (walkAt (depth + 1) nodes frame) pos stop (t.valueBy enter frame) := by
  intro env w hw
  cases h with
  | literal hn =>
    simp only [walkAt, hn] at hw
    cases hw
    exact ⟨rfl, rfl, rfl⟩
  | ref hn =>
    simp only [walkAt, hn] at hw
    cases hw
    exact ⟨rfl, rfl, rfl⟩
  | arg hn =>
    simp only [walkAt, hn] at hw
    cases hw
    exact ⟨rfl, rfl, rfl⟩
  | unary hn ha =>
    simp only [walkAt, hn] at hw
    exact Walk.unary_finds (ih _ _ _ ha) env w hw
  | binary hn ha hb =>
    simp only [walkAt, hn] at hw
    exact Walk.binary_finds (ih _ _ _ ha) (ih _ _ _ hb) env w hw
  | branch hn hc hyes ha hno hb =>
    simp only [walkAt, hn] at hw
    exact Walk.branch_finds (ih _ _ _ hc) hyes hno
      (fun env w h => (ih _ _ _ ha env w h).imp_right And.right)
      (fun env w h => (ih _ _ _ hb env w h).imp_right And.right) env w hw
  | loop hn hv hl hu hspan hb =>
    simp only [walkAt, hn] at hw
    exact Walk.loop_finds (walkAt_keeps depth nodes frame) hv (ih _ _ _ hl) (ih _ _ _ hu) hspan
      (ih _ _ _ hb) env w hw
  | call hn hargs =>
    simp only [walkAt, hn] at hw
    exact Walk.call_finds he (Walk.operands_finds ih hargs) env w hw

theorem Reads.meets {depth more : Nat} (h : Reads nodes read pos t stop) (hd : depth ≤ more)
    (ih : ∀ p u q, read p = .ok (u, q) →
      Walk.Meets (walkAt more nodes frame) p q (u.valueBy (Enter.byWalk depth) frame)) :
    Walk.Meets (walkAt (more + 1) nodes frame) pos stop (t.valueBy (Enter.byWalk depth) frame) := by
  intro env v hv
  cases h with
  | literal hn =>
    cases hv
    simp only [walkAt, hn]
  | ref hn =>
    cases hv
    simp only [walkAt, hn]
  | arg hn =>
    cases hv
    simp only [walkAt, hn]
  | unary hn ha =>
    simp only [walkAt, hn]
    exact Walk.unary_meets (ih _ _ _ ha) env v hv
  | binary hn ha hb =>
    simp only [walkAt, hn]
    exact Walk.binary_meets (ih _ _ _ ha) (ih _ _ _ hb) env v hv
  | branch hn hc hyes ha hno hb =>
    simp only [walkAt, hn]
    exact Walk.branch_meets (ih _ _ _ hc) hyes hno (ih _ _ _ ha) (ih _ _ _ hb) env v hv
  | loop hn hvar hl hu hspan hb =>
    simp only [walkAt, hn]
    exact Walk.loop_meets hvar (ih _ _ _ hl) (ih _ _ _ hu) hspan (ih _ _ _ hb) env v hv
  | call hn hargs =>
    simp only [walkAt, hn]
    exact Walk.call_meets hd (Walk.operands_meets ih hargs) env v hv

end

/-- Where a term is read, a walk finds the value of the term. -/
theorem walkAt_finds {nodes : Array Node} {frame : Frame} (depth : Nat) :
    ∀ {enter : Enter}, (∀ d, d < depth → Enter.Le (Enter.byWalk d) enter) →
      ∀ {levels pos t stop}, decodeFrom nodes levels pos = .ok (t, stop) →
        Walk.Finds (walkAt depth nodes frame) pos stop (t.valueBy enter frame) := by
  induction depth with
  | zero => intro _ _ _ _ _ _ _ env w hw; cases hw
  | succ depth ih =>
    intro enter he levels pos t stop h
    cases levels with
    | zero => cases h
    | succ levels =>
      exact (reads_of_decodeFrom h).finds (he depth (Nat.lt_succ_self depth)) fun _ _ _ h =>
        ih (fun d hd => he d (Nat.lt_succ_of_lt hd)) h

theorem walkAt_meets {nodes : Array Node} {frame : Frame} (depth levels : Nat) :
    ∀ {pos t stop}, decodeFrom nodes levels pos = .ok (t, stop) →
      Walk.Meets (walkAt (depth + levels) nodes frame) pos stop
        (t.valueBy (Enter.byWalk depth) frame) := by
  induction levels with
  | zero => intro pos t stop h; cases h
  | succ levels ih =>
    intro pos t stop h
    exact (reads_of_decodeFrom h).meets (Nat.le_add_right depth levels) fun _ _ _ h => ih h

end Term

end PrefixCalculus
