import Mathlib.Logic.Relation
import PrefixCalculus.Proofs.Unrolling
set_option autoImplicit false

/-!
How many passes an expansion takes. A pass replaces every call that reads the loop variable by the body
of the function, calls in arguments included; the readers that are left were called in those bodies.
If no function can come back to itself this way, the number of readers below a call goes down with
every pass, and it is less than the number of functions in the first one. Main statement: after as many
passes as there are functions no reader is left, so one more pass finds that there is none; an
expansion that is refused for recursion comes to a cycle of readers.
-/

namespace PrefixCalculus

open Relation (ReflTransGen TransGen)

def CallsReader (env : Environment) (address : Address) (nodes : Array Node) (f : FunctionId) : Prop :=
  ∃ function, env.function? f = some function ∧ Node.call f function.argc ∈ nodes ∧
    function.body.dependsOn (.var address) env = true

def ReaderCalls (env : Environment) (address : Address) (f g : FunctionId) : Prop :=
  ∃ function, env.function? f = some function ∧ CallsReader env address function.body.nodes g

/-- The nodes call, directly or through others, a function that calls itself so, where all of these
functions depend on the variable. -/
def ReachesCycle (env : Environment) (address : Address) (nodes : Array Node) : Prop :=
  ∃ f g, CallsReader env address nodes f ∧ ReflTransGen (ReaderCalls env address) f g ∧
    TransGen (ReaderCalls env address) g g

noncomputable def readersBelow (env : Environment) (address : Address) (f : FunctionId) : Nat :=
  env.countFunctions (TransGen (ReaderCalls env address) f)

section

variable {env : Environment} {address : Address} {f g : FunctionId}

theorem readersBelow_lt_of_calls (h : ReaderCalls env address f g)
    (acyclic : ¬TransGen (ReaderCalls env address) g g) :
    readersBelow env address g < readersBelow env address f := by
  have ⟨_, _, _, found, _⟩ := h
  exact Environment.countFunctions_lt (fun _ hk => .head h hk) found (.single h) acyclic

theorem readersBelow_lt_functionCount {function : Function} (found : env.function? f = some function)
    (acyclic : ¬TransGen (ReaderCalls env address) f f) :
    readersBelow env address f < env.functionCount :=
  Nat.lt_of_lt_of_le (Environment.countFunctions_lt (fun _ _ => trivial) found trivial acyclic)
    (Environment.countFunctions_le env fun _ => True)

end

namespace Term

section

variable {env : Environment} (valid : env.BodiesValid) {address : Address} {nodes : Array Node}
  {left : Nat} {t : Term}

def expandOnce (env : Environment) (address : Address) (t : Term) : Term :=
  t.inlineCalls (readerTerm? env address)

theorem ReaderFree.expandOnce_eq (free : ReaderFree env address t) : t.expandOnce env address = t :=
  inlineCalls_eq_self t free

def ReadersWithin (env : Environment) (address : Address) (nodes : Array Node) (left : Nat) (t : Term) :
    Prop :=
  ∀ c ∈ t.calls, ∀ body, readerTerm? env address c.1 c.2 = some body →
    (∃ f, CallsReader env address nodes f ∧ ReflTransGen (ReaderCalls env address) f c.1) ∧
      readersBelow env address c.1 < left

theorem ReadersWithin.readerFree (h : ReadersWithin env address nodes 0 t) : ReaderFree env address t := by
  intro c hc
  cases hbody : readerTerm? env address c.1 c.2 with
  | none => rfl
  | some body => exact absurd (h c hc body hbody).2 (Nat.not_lt_zero _)

include valid

theorem callsReader_of_mem_calls {c : FunctionId × Nat} {body : Term} (hc : c ∈ t.calls)
    (hbody : readerTerm? env address c.1 c.2 = some body) :
    CallsReader env address t.encode.nodes c.1 := by
  obtain ⟨function, found, hargc, -, -, hdepends⟩ := readerTerm?_eq_some valid hbody
  exact ⟨function, found, (call_mem_encode_iff t).2 ⟨c.2, hc, by rw [← hargc, UInt32.ofNat_toNat]⟩,
    hdepends⟩

theorem readersWithin_start (acyclic : ¬ReachesCycle env address t.encode.nodes) :
    ReadersWithin env address t.encode.nodes env.functionCount t := by
  intro c hc body hbody
  have hcalls := callsReader_of_mem_calls valid hc hbody
  have ⟨_, found, _⟩ := hcalls
  exact ⟨⟨c.1, hcalls, .refl⟩, readersBelow_lt_functionCount found fun hcycle =>
    acyclic ⟨c.1, c.1, hcalls, .refl, hcycle⟩⟩

/-- A reader that is left after a pass was called in the body of a reader before, and has less below
it. -/
theorem ReadersWithin.pass (acyclic : ¬ReachesCycle env address nodes)
    (h : ReadersWithin env address nodes (left + 1) t) :
    ReadersWithin env address nodes left (t.expandOnce env address) := by
  intro c hc body hbody
  obtain ⟨-, hnone⟩ | ⟨caller, hcaller, callerBody, hcallerBody, hcalled⟩ := calls_inlineCalls t hc
  · cases hnone.symm.trans hbody
  · obtain ⟨⟨f, hf, hreached⟩, hbelow⟩ := h caller hcaller callerBody hcallerBody
    obtain ⟨function, found, -, flat, -⟩ := readerTerm?_eq_some valid hcallerBody
    have hcalls : ReaderCalls env address caller.1 c.1 := by
      refine ⟨function, found, ?_⟩
      rw [flat]
      exact callsReader_of_mem_calls valid hcalled hbody
    have hreached' := hreached.tail hcalls
    have hlt := readersBelow_lt_of_calls hcalls fun hcycle => acyclic ⟨f, c.1, hf, hreached', hcycle⟩
    exact ⟨⟨f, hf, hreached'⟩, by omega⟩

theorem readerFree_iterate (acyclic : ¬ReachesCycle env address nodes) :
    ∀ left t, ReadersWithin env address nodes left t →
      ReaderFree env address ((expandOnce env address)^[left] t) := by
  intro left
  induction left with
  | zero => exact fun t h => h.readerFree
  | succ left ih => exact fun t h => ih _ (h.pass valid acyclic)

theorem expandReaders_of_readerFree (left : Nat) : ∀ (last : Option FunctionId) {t : Term}, t.Counted →
    ReaderFree env address ((expandOnce env address)^[left] t) →
      Derivation.expandReaders env address (left + 1) last t.encode
          = .ok ((expandOnce env address)^[left] t).encode ∨
        ∃ k ≤ left, ¬((expandOnce env address)^[k] t).Fits ∧
          ∃ d, Derivation.expandReaders env address (left + 1) last t.encode = .error (.malformed d) := by
  induction left with
  | zero =>
    intro last t counted free
    obtain ⟨unfit, hd⟩ | ⟨-, -, hok⟩ | ⟨-, reads, -⟩ := expandReaders_succ valid 0 last counted
    · exact .inr ⟨0, Nat.le_refl 0, unfit, hd⟩
    · exact .inl hok
    · exact absurd free reads
  | succ left ih =>
    intro last t counted free
    obtain ⟨unfit, hd⟩ | ⟨-, free', hok⟩ | ⟨-, -, f, hnext⟩ :=
      expandReaders_succ valid (left + 1) last counted
    · exact .inr ⟨0, Nat.zero_le _, unfit, hd⟩
    · rw [Function.iterate_fixed free'.expandOnce_eq]
      exact .inl hok
    · have counted' : (t.expandOnce env address).Counted :=
        forall_calls_inlineCalls valid inherited_counted counted
      rw [hnext]
      obtain hok | ⟨k, hk, hrest⟩ := ih (some f) counted' free
      · exact .inl hok
      · exact .inr ⟨k + 1, Nat.succ_le_succ hk, hrest⟩

end

end Term

namespace Derivation

/-- What an expansion of a loop body gives has no call that reads the variable. It is refused for
recursion only if readers come back to themselves. Otherwise no reader is left after as many passes as
there are functions, and the expansion gives what is left then, unless it grew too long to be read. -/
theorem expandReaders_ends {env : Environment} (valid : env.BodiesValid) {body : Expression}
    (hbody : body.check = .ok ()) (address : Address) :
    (∀ b, expandReaders env address (env.functionCount + 1) none body = .ok b →
      ∀ f argc, Node.call f argc ∈ b.nodes → ∀ function, env.function? f = some function →
        function.argc = argc → function.body.dependsOn (.var address) env = false) ∧
    (∀ f, expandReaders env address (env.functionCount + 1) none body = .error (.recursiveCall f) →
      ReachesCycle env address body.nodes) ∧
    (¬ReachesCycle env address body.nodes → ∃ t : Term, Term.decode body = .ok t ∧
      Term.ReaderFree env address ((Term.expandOnce env address)^[env.functionCount] t) ∧
      (expandReaders env address (env.functionCount + 1) none body
          = .ok ((Term.expandOnce env address)^[env.functionCount] t).encode ∨
        ∃ k ≤ env.functionCount, ¬((Term.expandOnce env address)^[k] t).Fits ∧
          ∃ d, expandReaders env address (env.functionCount + 1) none body
            = .error (.malformed d))) := by
  obtain ⟨t, fits, rfl⟩ := Term.check_eq_ok_iff.1 hbody
  have counted := Term.counted_of_fits t fits
  have hends := fun acyclic : ¬ReachesCycle env address t.encode.nodes =>
    have free := Term.readerFree_iterate valid acyclic _ t (Term.readersWithin_start valid acyclic)
    And.intro free (Term.expandReaders_of_readerFree valid env.functionCount none counted free)
  refine ⟨fun b hb f argc hcall function found hargc => ?_, fun f hf => ?_, fun acyclic =>
    ⟨t, Term.decode_encode fits, hends acyclic⟩⟩
  · obtain ⟨t', hexpands, rfl⟩ := Term.exists_of_expandReaders valid _ counted hb
    obtain ⟨n, hn, rfl⟩ := (Term.call_mem_encode_iff t').1 hcall
    have hlt : n < UInt32.size := hexpands.counted valid counted _ hn
    have hcount : (UInt32.ofNat n).toNat = n := UInt32.toNat_ofNat_of_lt hlt
    rw [← hargc] at hcount
    exact eq_false_of_ne_true
      ((Term.readerTerm?_eq_none_iff valid found hcount).1 (hexpands.readerFree _ hn))
  · by_contra acyclic
    obtain ⟨-, hok | ⟨-, -, -, d, hd⟩⟩ := hends acyclic
    · cases hf.symm.trans hok
    · cases hf.symm.trans hd

/-- The functions `f(x)`, a call with `x` plus `i`, and `g(x) = x * i`. -/
def readerStore (callee : FunctionId) : Environment where
  slots := #[⟨some "i", nan⟩]
  entries := #[⟨⟨"f", 1, (Term.binary .add (.call callee [.arg 0]) (.ref ⟨0⟩)).encode⟩, true⟩,
    ⟨⟨"g", 1, (Term.binary .mul (.arg 0) (.ref ⟨0⟩)).encode⟩, true⟩]

def nestedReaders : Expression :=
  .call ⟨0⟩ [.call ⟨0⟩ [.var ⟨0⟩]]

theorem bodiesValid_readerStore (callee : FunctionId) : (readerStore callee).BodiesValid := by
  apply Environment.bodiesValid_of_entries
  simp only [readerStore, List.mem_toArray, List.forall_mem_cons]
  exact ⟨.inr (Term.check_encode ⟨⟨⟨trivial, trivial⟩, by decide⟩, trivial⟩),
    .inr (Term.check_encode ⟨trivial, trivial⟩), by simp⟩

/-- If `f` calls `g`, two passes replace all calls and the third one finds that, but two passes alone
are refused. If `f` calls itself, there is a cycle. -/
theorem expandReaders_nestedReaders :
    expandReaders (readerStore ⟨1⟩) ⟨0⟩ 2 none nestedReaders = .error (.recursiveCall ⟨1⟩) ∧
    (∃ b, expandReaders (readerStore ⟨1⟩) ⟨0⟩ 3 none nestedReaders = .ok b ∧
      ∀ f argc, Node.call f argc ∈ b.nodes → ∀ function, (readerStore ⟨1⟩).function? f = some function →
        function.argc = argc → function.body.dependsOn (.var ⟨0⟩) (readerStore ⟨1⟩) = false) ∧
    ReachesCycle (readerStore ⟨0⟩) ⟨0⟩ nestedReaders.nodes := by
  have accepted : nestedReaders.check = .ok () := rfl
  refine ⟨rfl, ⟨_, rfl, ?_⟩, ?_⟩
  · exact (expandReaders_ends (bodiesValid_readerStore ⟨1⟩) accepted ⟨0⟩).1 _ rfl
  · exact (expandReaders_ends (bodiesValid_readerStore ⟨0⟩) accepted ⟨0⟩).2.1 ⟨0⟩ rfl

end Derivation

end PrefixCalculus
