import PrefixCalculus.Derivative
import PrefixCalculus.Proofs.DependenceSearch
import PrefixCalculus.Proofs.Instantiation
import PrefixCalculus.Proofs.SpanDistances
set_option autoImplicit false

/-!
The body of a loop that is written out. The calls that read the loop variable are replaced by bodies
in passes, then the variable is replaced by each of its values; on terms these are substitutions.
Main statements: an expansion that succeeds gives the flat form of the body after some of those
passes, without a call that reads the variable; and what does not read the variable calls nothing that
does.
-/

namespace PrefixCalculus

namespace Environment

/-- Every function has a body that passes the check, or none. -/
def BodiesValid (env : Environment) : Prop :=
  ∀ f function, env.function? f = some function →
    function.body.isNull = true ∨ function.body.check = .ok ()

theorem exists_entry_of_function? {env : Environment} {f : FunctionId} {function : Function}
    (found : env.function? f = some function) : ∃ entry ∈ env.entries, entry.function = function := by
  obtain ⟨entry, hentry, heq⟩ := Option.map_eq_some_iff.1 found
  exact ⟨entry, Array.mem_of_getElem? hentry, heq⟩

theorem bodiesValid_of_entries {env : Environment} (h : ∀ entry ∈ env.entries,
    entry.function.body.isNull = true ∨ entry.function.body.check = .ok ()) : env.BodiesValid := by
  intro f function found
  obtain ⟨entry, hmem, rfl⟩ := exists_entry_of_function? found
  exact h entry hmem

end Environment

theorem not_reads_null {env : Environment} {address : Address} {e : Expression}
    (h : e.isNull = true) : ¬Reads env e.nodes address := by
  rw [Expression.isNull_iff] at h
  subst h
  have hreached : ∀ f, ¬Reaches env Expression.null.nodes f := by
    intro f hf
    induction hf with
    | direct hcall =>
      obtain ⟨argc, hcall⟩ := hcall
      simp [Expression.null] at hcall
    | through _ _ _ ih => exact ih
  rintro (href | ⟨f, function, hf, -⟩)
  · simp [Expression.null] at href
  · exact hreached f hf

namespace Term

/-! Replacing a variable -/

theorem under_ofVar (address a : Address) (value : Expression) :
    (Replacement.ofVar address value).under a
      = if a = address then Replacement.keep else Replacement.ofVar address value := by
  by_cases h : a = address
  · rw [if_pos h]
    simp only [Replacement.under, Replacement.ofVar, Replacement.keep, Replacement.mk.injEq, and_true]
    funext x
    by_cases hx : x = a
    · rw [if_pos hx]
    · rw [if_neg hx, if_neg fun e => hx (e.trans h.symm)]
  · rw [if_neg h]
    simp only [Replacement.under, Replacement.ofVar, Replacement.keep, Replacement.mk.injEq, and_true]
    funext x
    by_cases hx : x = a
    · rw [if_pos hx, if_neg fun e => h (hx.symm.trans e)]
    · rw [if_neg hx]

mutual

theorem encodeWith_ofVar (address : Address) (value : Term) : ∀ t : Term,
    t.encodeWith (Replacement.ofVar address value.encode) = (replace address value t).encode
  | literal _ => rfl
  | arg _ => rfl
  | ref a => by
    by_cases h : a = address
    · simp [encodeWith, Replacement.ofVar, replace, h]
    · simp [encodeWith, Replacement.ofVar, replace, h, encode]
  | unary op t => by simp only [encodeWith, replace, encode, encodeWith_ofVar address value t]
  | binary op a b => by
    simp only [encodeWith, replace, encode, encodeWith_ofVar address value a,
      encodeWith_ofVar address value b]
  | branch c a b => by
    simp only [encodeWith, replace, encode, encodeWith_ofVar address value c,
      encodeWith_ofVar address value a, encodeWith_ofVar address value b]
  | loop kind v lower upper body => by
    simp only [encodeWith, replace, encode, encodeWith_ofVar address value lower,
      encodeWith_ofVar address value upper, under_ofVar]
    by_cases h : v = address
    · rw [if_pos h, if_pos h, encodeWith_keep]
    · rw [if_neg h, if_neg h, encodeWith_ofVar address value body]
  | call f ts => by
    rw [replace, encode, ← encodeAllWith_ofVar address value ts]
    rfl

theorem encodeAllWith_ofVar (address : Address) (value : Term) : ∀ ts : List Term,
    encodeAllWith (Replacement.ofVar address value.encode) ts
      = encodeAll (replaceAll address value ts)
  | [] => rfl
  | t :: ts => by
    simp only [encodeAllWith, replaceAll, encodeAll, encodeWith_ofVar address value t,
      encodeAllWith_ofVar address value ts]

end

theorem replaceVar_encode {t : Term} (counted : t.Counted) (address : Address) (value : Term) :
    ¬t.Fits ∧ t.encode.replaceVar address value.encode = Expression.null ∨
      t.Fits ∧ t.encode.replaceVar address value.encode = (replace address value t).encode := by
  rw [Expression.replaceVar, Expression.withReplacements_eq _ (isNull_encode t)]
  cases h : decode t.encode with
  | error d =>
    refine .inl ⟨fun fits => ?_, rfl⟩
    rw [decode_encode fits] at h
    cases h
  | ok t' =>
    obtain ⟨rfl, fits⟩ := eq_of_decode counted h
    exact .inr ⟨fits, encodeWith_ofVar address value _⟩

theorem replaceAll_eq_map (address : Address) (value : Term) (ts : List Term) :
    replaceAll address value ts = ts.map (replace address value) := by
  induction ts with
  | nil => rfl
  | cons t ts ih => rw [replaceAll, ih, List.map_cons]

theorem callsAll_map {f : Term → Term} {ts : List Term} (h : ∀ t ∈ ts, (f t).calls = t.calls) :
    callsAll (ts.map f) = callsAll ts := by
  induction ts with
  | nil => rfl
  | cons t ts ih =>
    rw [List.map_cons, callsAll, callsAll, h t (by simp), ih fun u hu => h u (by simp [hu])]

theorem calls_replace {address : Address} {value : Term} (hvalue : value.calls = []) (t : Term) :
    (replace address value t).calls = t.calls := by
  induction t using Term.induction with
  | literal | arg => rfl
  | ref a =>
    rw [replace]
    split
    · exact hvalue
    · rfl
  | unary op t ih => simp only [replace, calls, ih]
  | binary op a b iha ihb => simp only [replace, calls, iha, ihb]
  | branch c a b ihc iha ihb => simp only [replace, calls, ihc, iha, ihb]
  | loop kind v lower upper body ihl ihu ihb =>
    simp only [replace, calls, ihl, ihu]
    split
    · rfl
    · rw [ihb]
  | call f args ih =>
    rw [replace, replaceAll_eq_map, calls, calls, callsAll_map ih, List.length_map]

theorem mem_callsAll_map {f : Term → Term} {ts : List Term} {c : FunctionId × Nat}
    (h : c ∈ callsAll (ts.map f)) : ∃ t ∈ ts, c ∈ (f t).calls := by
  obtain ⟨u, hu, hc⟩ := mem_callsAll.1 h
  obtain ⟨t, ht, rfl⟩ := List.mem_map.1 hu
  exact ⟨t, ht, hc⟩

theorem calls_instantiate {args : List Term} {c : FunctionId × Nat} (t : Term)
    (h : c ∈ (t.instantiate args).calls) : c ∈ t.calls ∨ ∃ a ∈ args, c ∈ a.calls := by
  induction t using Term.induction with
  | literal | ref => exact .inl h
  | arg i =>
    rw [instantiate] at h
    cases hi : args[i.toNat]? with
    | none => rw [hi] at h; exact .inl h
    | some a => rw [hi] at h; exact .inr ⟨a, List.mem_of_getElem? hi, h⟩
  | unary op t ih => exact ih h
  | binary op a b iha ihb =>
    simp only [instantiate, calls, List.mem_append] at h ⊢
    exact h.elim (fun h => (iha h).imp_left .inl) fun h => (ihb h).imp_left .inr
  | branch c a b ihc iha ihb =>
    simp only [instantiate, calls, List.mem_append] at h ⊢
    obtain (h | h) | h := h
    · exact (ihc h).imp_left fun h => .inl (.inl h)
    · exact (iha h).imp_left fun h => .inl (.inr h)
    · exact (ihb h).imp_left .inr
  | loop kind v lower upper body ihl ihu ihb =>
    simp only [instantiate, calls, List.mem_append] at h ⊢
    obtain (h | h) | h := h
    · exact (ihl h).imp_left fun h => .inl (.inl h)
    · exact (ihu h).imp_left fun h => .inl (.inr h)
    · exact (ihb h).imp_left .inr
  | call f ts ih =>
    simp only [instantiate, instantiateAll_eq_map, calls, List.mem_append, List.mem_singleton,
      List.length_map] at h ⊢
    rcases h with h | h
    · obtain ⟨t, ht, hc⟩ := mem_callsAll_map h
      exact (ih t ht hc).imp_left fun hc => .inl (mem_callsAll.2 ⟨t, ht, hc⟩)
    · exact .inl (.inr h)

/-! Replacing calls by bodies -/

mutual

/-- The term with bodies in place of calls, one level deep; `body?` gives the body for a function and a
number of arguments. -/
def inlineCalls (body? : FunctionId → Nat → Option Term) : Term → Term
  | literal x => literal x
  | ref a => ref a
  | arg i => arg i
  | unary op t => unary op (t.inlineCalls body?)
  | binary op a b => binary op (a.inlineCalls body?) (b.inlineCalls body?)
  | branch c a b => branch (c.inlineCalls body?) (a.inlineCalls body?) (b.inlineCalls body?)
  | loop kind v lower upper body =>
    loop kind v (lower.inlineCalls body?) (upper.inlineCalls body?) (body.inlineCalls body?)
  | call f args =>
    match body? f args.length with
    | some body => body.instantiate (inlineCallsAll body? args)
    | none => call f (inlineCallsAll body? args)

def inlineCallsAll (body? : FunctionId → Nat → Option Term) : List Term → List Term
  | [] => []
  | t :: ts => t.inlineCalls body? :: inlineCallsAll body? ts

end

section

variable {body? : FunctionId → Nat → Option Term}

theorem inlineCallsAll_eq_map (ts : List Term) :
    inlineCallsAll body? ts = ts.map (inlineCalls body?) := by
  induction ts with
  | nil => rfl
  | cons t ts ih => rw [inlineCallsAll, ih, List.map_cons]

theorem calls_inlineCalls {c : FunctionId × Nat} (t : Term) (h : c ∈ (t.inlineCalls body?).calls) :
    c ∈ t.calls ∧ body? c.1 c.2 = none ∨
      ∃ called ∈ t.calls, ∃ body, body? called.1 called.2 = some body ∧ c ∈ body.calls := by
  induction t using Term.induction with
  | literal | ref | arg => simp [inlineCalls, calls] at h
  | unary op t ih => exact ih h
  | binary op a b iha ihb =>
    simp only [inlineCalls, calls, List.mem_append] at h ⊢
    grind
  | branch c a b ihc iha ihb =>
    simp only [inlineCalls, calls, List.mem_append] at h ⊢
    grind
  | loop kind v lower upper body ihl ihu ihb =>
    simp only [inlineCalls, calls, List.mem_append] at h ⊢
    grind
  | call f args ih =>
    -- a call in an argument, as if the argument stood alone
    have hargs : ∀ u ∈ inlineCallsAll body? args, c ∈ u.calls →
        (c ∈ (call f args).calls ∧ body? c.1 c.2 = none ∨ ∃ called ∈ (call f args).calls,
          ∃ body, body? called.1 called.2 = some body ∧ c ∈ body.calls) := by
      intro u hu hc
      rw [inlineCallsAll_eq_map] at hu
      obtain ⟨t, ht, rfl⟩ := List.mem_map.1 hu
      have hsub : ∀ c ∈ t.calls, c ∈ (call f args).calls := fun c hc =>
        List.mem_append_left _ (mem_callsAll.2 ⟨t, ht, hc⟩)
      obtain ⟨hc, hnone⟩ | ⟨called, hcalled, hbody⟩ := ih t ht hc
      · exact .inl ⟨hsub _ hc, hnone⟩
      · exact .inr ⟨called, hsub _ hcalled, hbody⟩
    have hcall : (f, args.length) ∈ (call f args).calls := by simp [calls]
    rw [inlineCalls] at h
    split at h
    · rename_i body hbody
      obtain h | ⟨u, hu, hc⟩ := calls_instantiate body h
      · exact .inr ⟨_, hcall, body, hbody, h⟩
      · exact hargs u hu hc
    · rename_i hnone
      rw [calls, List.mem_append, List.mem_singleton] at h
      rcases h with h | rfl
      · obtain ⟨u, hu, hc⟩ := mem_callsAll.1 h
        exact hargs u hu hc
      · rw [inlineCallsAll_eq_map, List.length_map]
        exact .inl ⟨hcall, hnone⟩

theorem inlineCalls_eq_self (t : Term) (h : ∀ c ∈ t.calls, body? c.1 c.2 = none) :
    t.inlineCalls body? = t := by
  induction t using Term.induction with
  | literal | ref | arg => rfl
  | unary op t ih => rw [inlineCalls, ih h]
  | binary op a b iha ihb =>
    simp only [calls, List.forall_mem_append] at h
    rw [inlineCalls, iha h.1, ihb h.2]
  | branch c a b ihc iha ihb =>
    simp only [calls, List.forall_mem_append] at h
    rw [inlineCalls, ihc h.1.1, iha h.1.2, ihb h.2]
  | loop kind v lower upper body ihl ihu ihb =>
    simp only [calls, List.forall_mem_append] at h
    rw [inlineCalls, ihl h.1.1, ihu h.1.2, ihb h.2]
  | call f args ih =>
    have hcall := h (f, args.length) (by simp [calls])
    have hargs : args.map (inlineCalls body?) = args.map id := List.map_congr_left fun t ht =>
      ih t ht fun c hc => h c (List.mem_append_left _ (mem_callsAll.2 ⟨t, ht, hc⟩))
    rw [inlineCalls, hcall, inlineCallsAll_eq_map, hargs, List.map_id]

end

theorem call_mem_encode_iff {f : FunctionId} {argc : UInt32} (t : Term) :
    Node.call f argc ∈ t.encode.nodes ↔ ∃ n, (f, n) ∈ t.calls ∧ UInt32.ofNat n = argc := by
  have hspanned : ∀ nodes : Array Node,
      Node.call f argc ∈ Expression.spanned nodes ↔ Node.call f argc ∈ nodes := by
    simp [Expression.spanned]
  induction t using Term.induction with
  | literal | ref | arg =>
    simp [calls, encode, Expression.literal, Expression.var, Expression.arg, Expression.leaf]
  | unary op t ih => simp [nodes_unary, calls, ih]
  | binary op a b iha ihb => simp [nodes_binary, calls, iha, ihb, or_and_right, exists_or]
  | branch c a b ihc iha ihb =>
    simp [nodes_branch, calls, hspanned, ihc, iha, ihb, or_and_right, exists_or]
  | loop kind v lower upper body ihl ihu ihb =>
    simp [nodes_loop, calls, hspanned, ihl, ihu, ihb, or_and_right, exists_or]
  | call g args ih =>
    rw [nodes_call, Array.mem_append, mem_concat_encodeAll]
    simp only [calls, List.mem_append, List.mem_singleton, Prod.mk.injEq, mem_callsAll]
    constructor
    · rintro (hn | ⟨t, ht, hn⟩)
      · obtain ⟨rfl, rfl⟩ := Node.call.inj (by simpa using hn)
        exact ⟨args.length, .inr ⟨rfl, rfl⟩, rfl⟩
      · obtain ⟨n, hcall, rfl⟩ := (ih t ht).1 hn
        exact ⟨n, .inl ⟨t, ht, hcall⟩, rfl⟩
    · rintro ⟨n, ⟨t, ht, hn⟩ | ⟨rfl, rfl⟩, rfl⟩
      · exact .inr ⟨t, ht, (ih t ht).2 ⟨n, hn, rfl⟩⟩
      · exact .inl (by simp)

theorem calls_of_mem_calls {c : FunctionId × Nat} (t : Term) (h : c ∈ t.calls) :
    Calls t.encode.nodes c.1 :=
  ⟨UInt32.ofNat c.2, (call_mem_encode_iff t).2 ⟨c.2, h, rfl⟩⟩

/-! Expanding readers -/

def readerTerm? (env : Environment) (address : Address) (f : FunctionId) (argc : Nat) : Option Term :=
  (Derivation.readerBody? env address f argc).bind fun body => (decode body).toOption

def ReaderFree (env : Environment) (address : Address) (t : Term) : Prop :=
  ∀ c ∈ t.calls, readerTerm? env address c.1 c.2 = none

/-- The property passes from a call to the calls in the body that it enters. -/
def Inherited (env : Environment) (Q : FunctionId × Nat → Prop) : Prop :=
  ∀ c function body, Q c → env.function? c.1 = some function → function.argc.toNat = c.2 →
    function.body = encode body → body.Fits → ∀ c' ∈ body.calls, Q c'

theorem inherited_counted {env : Environment} : Inherited env (·.2 < UInt32.size) :=
  fun _ _ body _ _ _ _ fits => counted_of_fits body fits

/-- Pass after pass the readers of a variable are replaced, until there is none. -/
inductive Expands (env : Environment) (address : Address) : Term → Term → Prop
  | done {t : Term} (free : ReaderFree env address t) : Expands env address t t
  | pass {t t' : Term} (reads : ¬ReaderFree env address t)
      (rest : Expands env address (t.inlineCalls (readerTerm? env address)) t') :
      Expands env address t t'

theorem encodeAllWith_eq_map (r : Replacement) (ts : List Term) :
    encodeAllWith r ts = ts.map (encodeWith r) := by
  induction ts with
  | nil => rfl
  | cons t ts ih => rw [encodeAllWith, ih, List.map_cons]

theorem under_expanding (env : Environment) (address a : Address) :
    (Derivation.expanding env address).under a = Derivation.expanding env address := by
  simp [Derivation.expanding, Replacement.under, Replacement.keep]

section

variable {env : Environment} (valid : env.BodiesValid) {address : Address} {f : FunctionId} {argc : Nat}
include valid

theorem readerBody?_eq_some {body : Expression}
    (h : Derivation.readerBody? env address f argc = some body) :
    ∃ function t, env.function? f = some function ∧ function.argc.toNat = argc ∧
      function.body = body ∧ body.dependsOnVar address env = true ∧ t.Fits ∧ body = t.encode ∧
      readerTerm? env address f argc = some t := by
  have hreader := h
  unfold Derivation.readerBody? at h
  obtain ⟨function, found, h⟩ := Option.bind_eq_some_iff.1 h
  split at h
  · rename_i hargc
    rw [Bool.and_eq_true, decide_eq_true_eq] at hargc
    cases h
    obtain ⟨t, fits, ht⟩ := check_eq_ok_iff.1 ((valid f function found).resolve_left
      fun hnull => not_reads_null hnull ((Expression.dependsOnVar_iff _ _ _).1 hargc.2))
    refine ⟨function, t, found, hargc.1, rfl, hargc.2, fits, ht, ?_⟩
    rw [readerTerm?, hreader, Option.bind_some, ht, decode_encode fits]
    rfl
  · cases h

theorem readerTerm?_eq_none_iff {function : Function} (found : env.function? f = some function)
    (hargc : function.argc.toNat = argc) :
    readerTerm? env address f argc = none ↔ ¬function.body.dependsOnVar address env = true := by
  constructor
  · intro h hdepends
    have hbody : Derivation.readerBody? env address f argc = some function.body := by
      rw [Derivation.readerBody?, found]
      simp [hargc, hdepends]
    obtain ⟨-, t, -, -, -, -, -, -, hterm⟩ := readerBody?_eq_some valid hbody
    rw [h] at hterm
    cases hterm
  · intro h
    cases hbody : Derivation.readerBody? env address f argc with
    | none => rw [readerTerm?, hbody, Option.bind_none]
    | some body =>
      obtain ⟨function', -, found', -, rfl, hdepends, -⟩ := readerBody?_eq_some valid hbody
      rw [found] at found'
      cases found'
      exact absurd hdepends h

theorem readerTerm?_eq_some {t : Term} (h : readerTerm? env address f argc = some t) :
    ∃ function, env.function? f = some function ∧ function.argc.toNat = argc ∧
      function.body = t.encode ∧ t.Fits ∧ function.body.dependsOnVar address env = true := by
  obtain ⟨body, hbody, -⟩ := Option.bind_eq_some_iff.1 h
  obtain ⟨function, t', found, hargc, rfl, hdepends, fits, ht, hterm⟩ :=
    readerBody?_eq_some valid hbody
  rw [h] at hterm
  cases hterm
  exact ⟨function, found, hargc, ht, fits, hdepends⟩

end

mutual

/-- One pass of an expansion puts bodies in place of the calls that read the variable. -/
theorem encodeWith_expanding {env : Environment} (valid : env.BodiesValid) {address : Address} :
    ∀ t : Term, t.encodeWith (Derivation.expanding env address)
      = (t.inlineCalls (readerTerm? env address)).encode
  | literal _ => rfl
  | ref _ => rfl
  | arg _ => rfl
  | unary op t => by simp only [encodeWith, inlineCalls, encode, encodeWith_expanding valid t]
  | binary op a b => by
    simp only [encodeWith, inlineCalls, encode, encodeWith_expanding valid a,
      encodeWith_expanding valid b]
  | branch c a b => by
    simp only [encodeWith, inlineCalls, encode, encodeWith_expanding valid c,
      encodeWith_expanding valid a, encodeWith_expanding valid b]
  | loop kind v lower upper body => by
    simp only [encodeWith, inlineCalls, encode, under_expanding, encodeWith_expanding valid lower,
      encodeWith_expanding valid upper, encodeWith_expanding valid body]
  | call f args => by
    have hlen : (encodeAll (inlineCallsAll (readerTerm? env address) args)).length = args.length := by
      rw [encodeAll_eq_map, inlineCallsAll_eq_map, List.length_map, List.length_map]
    rw [encodeWith, encodeAllWith_expanding valid args, inlineCalls]
    simp only [Derivation.expanding, hlen]
    cases hbody : Derivation.readerBody? env address f args.length with
    | none =>
      rw [readerTerm?, hbody]
      rfl
    | some body =>
      obtain ⟨-, t, -, -, -, -, fits, rfl, hterm⟩ := readerBody?_eq_some valid hbody
      rw [hterm, encodeAll_eq_map]
      exact instantiate_encode fits _

theorem encodeAllWith_expanding {env : Environment} (valid : env.BodiesValid) {address : Address} :
    ∀ ts : List Term, encodeAllWith (Derivation.expanding env address) ts
      = encodeAll (inlineCallsAll (readerTerm? env address) ts)
  | [] => rfl
  | t :: ts => by
    simp only [encodeAllWith, inlineCallsAll, encodeAll, encodeWith_expanding valid t,
      encodeAllWith_expanding valid ts]

end

section

variable {env : Environment} (valid : env.BodiesValid) {address : Address}
include valid

theorem readerTerm?_eq_none_iff_readerBody? {f : FunctionId} {argc : Nat} :
    readerTerm? env address f argc = none ↔ Derivation.readerBody? env address f argc = none := by
  cases hbody : Derivation.readerBody? env address f argc with
  | none => simp [readerTerm?, hbody]
  | some body =>
    obtain ⟨-, t, -, -, -, -, -, -, hterm⟩ := readerBody?_eq_some valid hbody
    simp [hterm]

theorem lastReplaced_expanding_eq_none_iff (t : Term) : ∀ last,
    t.lastReplaced (Derivation.expanding env address) last = none ↔
      last = none ∧ ReaderFree env address t := by
  induction t using Term.induction with
  | literal | ref | arg => simp [lastReplaced, ReaderFree, calls]
  | unary op t ih => exact ih
  | binary op a b iha ihb =>
    intro last
    simp only [lastReplaced, iha, ihb, ReaderFree, calls, List.forall_mem_append]
    tauto
  | branch c a b ihc iha ihb =>
    intro last
    simp only [lastReplaced, ihc, iha, ihb, ReaderFree, calls, List.forall_mem_append]
    tauto
  | loop kind v lower upper body ihl ihu ihb =>
    intro last
    simp only [lastReplaced, under_expanding, ihl, ihu, ihb, ReaderFree, calls,
      List.forall_mem_append]
    tauto
  | call f args ih =>
    intro last
    have hargs : ∀ last, lastReplacedAll (Derivation.expanding env address) args last = none ↔
        last = none ∧ ∀ c ∈ callsAll args, readerTerm? env address c.1 c.2 = none := by
      induction args with
      | nil => simp [lastReplacedAll, callsAll]
      | cons t ts ihs =>
        intro last
        rw [lastReplacedAll, ihs fun u hu => ih u (by simp [hu]), ih t (by simp), callsAll,
          List.forall_mem_append, ReaderFree, and_assoc]
    rw [lastReplaced, ReaderFree, calls, List.forall_mem_append, List.forall_mem_singleton,
      readerTerm?_eq_none_iff_readerBody? valid]
    simp only [Derivation.expanding, encodeAllWith_eq_map, List.length_map]
    cases hbody : Derivation.readerBody? env address f args.length with
    | none =>
      rw [Option.map_none, ← and_assoc, and_iff_left rfl]
      exact hargs last
    | some body => simp

theorem forall_calls_inlineCalls {Q : FunctionId × Nat → Prop} (inherited : Inherited env Q) {t : Term}
    (h : ∀ c ∈ t.calls, Q c) : ∀ c ∈ (t.inlineCalls (readerTerm? env address)).calls, Q c := by
  intro c hc
  obtain ⟨hc, -⟩ | ⟨called, hcalled, body, hbody, hc⟩ := calls_inlineCalls t hc
  · exact h c hc
  · obtain ⟨function, found, hargc, flat, fits, -⟩ := readerTerm?_eq_some valid hbody
    exact inherited called function body (h called hcalled) found hargc flat fits c hc

/-- A pass finds that the term cannot be read, or that there is no reader in it, or it puts the bodies
in place of the readers and leaves the rest to the next pass. -/
theorem expandReaders_succ (passes : Nat) (last : Option FunctionId) {t : Term} (counted : t.Counted) :
    ¬t.Fits ∧ (∃ d, Derivation.expandReaders env address (passes + 1) last t.encode
        = .error (.malformed d)) ∨
      t.Fits ∧ ReaderFree env address t ∧
        Derivation.expandReaders env address (passes + 1) last t.encode = .ok t.encode ∨
      t.Fits ∧ ¬ReaderFree env address t ∧
        ∃ f, Derivation.expandReaders env address (passes + 1) last t.encode
          = Derivation.expandReaders env address passes (some f)
              (t.inlineCalls (readerTerm? env address)).encode := by
  rw [Derivation.expandReaders, Expression.rebuild_eq _ (isNull_encode t)]
  cases hd : decode t.encode with
  | error d =>
    refine .inl ⟨fun fits => ?_, d, rfl⟩
    rw [decode_encode fits] at hd
    cases hd
  | ok t' =>
    obtain ⟨rfl, fits⟩ := eq_of_decode counted hd
    simp only [Except.map, encodeWith_expanding valid]
    have hfree : t'.lastReplaced (Derivation.expanding env address) none = none ↔ _ :=
      lastReplaced_expanding_eq_none_iff valid t' none
    cases hlast : t'.lastReplaced (Derivation.expanding env address) none with
    | none =>
      have free := (hfree.1 hlast).2
      exact .inr (.inl ⟨fits, free, by rw [inlineCalls_eq_self _ free]⟩)
    | some f =>
      refine .inr (.inr ⟨fits, fun free => ?_, f, rfl⟩)
      cases hlast.symm.trans (hfree.2 ⟨rfl, free⟩)

/-- An expansion that succeeds gives the flat form of the term without readers. -/
theorem exists_of_expandReaders (passes : Nat) :
    ∀ {last t e}, t.Counted →
      Derivation.expandReaders env address (passes + 1) last t.encode = .ok e →
      ∃ t', Expands env address t t' ∧ e = t'.encode := by
  induction passes with
  | zero =>
    intro last t e counted h
    obtain ⟨-, d, hd⟩ | ⟨-, free, hfree⟩ | ⟨-, -, f, hnext⟩ := expandReaders_succ valid 0 last counted
    · cases h.symm.trans hd
    · cases h.symm.trans hfree
      exact ⟨t, .done free, rfl⟩
    · cases h.symm.trans hnext
  | succ passes ih =>
    intro last t e counted h
    obtain ⟨-, d, hd⟩ | ⟨-, free, hfree⟩ | ⟨-, reads, f, hnext⟩ :=
      expandReaders_succ valid (passes + 1) last counted
    · cases h.symm.trans hd
    · cases h.symm.trans hfree
      exact ⟨t, .done free, rfl⟩
    · obtain ⟨t', hexpands, he⟩ :=
        ih (forall_calls_inlineCalls valid inherited_counted counted) (hnext.symm.trans h)
      exact ⟨t', .pass reads hexpands, he⟩

theorem Expands.forall_calls {Q : FunctionId × Nat → Prop} (inherited : Inherited env Q) {t t' : Term}
    (h : Expands env address t t') (ht : ∀ c ∈ t.calls, Q c) : ∀ c ∈ t'.calls, Q c := by
  induction h with
  | done => exact ht
  | pass _ _ ih => exact ih (forall_calls_inlineCalls valid inherited ht)

theorem Expands.counted {t t' : Term} (h : Expands env address t t') (counted : t.Counted) :
    t'.Counted :=
  h.forall_calls valid inherited_counted counted

end

theorem Expands.readerFree {env : Environment} {address : Address} {t t' : Term}
    (h : Expands env address t t') : ReaderFree env address t' := by
  induction h with
  | done free => exact free
  | pass _ _ ih => exact ih

end Term

end PrefixCalculus
