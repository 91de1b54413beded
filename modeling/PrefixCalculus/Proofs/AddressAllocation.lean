import Mathlib.Data.List.Infix
import PrefixCalculus.Proofs.StoredVariables
set_option autoImplicit false

/-!
The variables of a store as an allocator of addresses. What one operation does is read off the
environment that the store holds; consistency and the addresses of names are kept by each command and
so by every run. Main statement: after any commands names and addresses determine each other, a fresh
name gets the smallest number that is not in use, the last slot is in use, deleting a name touches no
other, and a name keeps its address until it is deleted.
-/

namespace PrefixCalculus

namespace Store

def IsFree (s : Store) (i : Nat) : Prop :=
  ∀ name a, s.lookup? name = some a → a.index.toNat ≠ i

def SameVariable (s after : Store) (name : String) : Prop :=
  after.lookup? name = s.lookup? name ∧ after.get name = s.get name

/-- The variables behave as an allocator that gives out the smallest number not in use. -/
structure Allocates (s : Store) : Prop where
  nameOf?_iff : ∀ {a : Address} {name : String}, s.nameOf? a = some name ↔ s.lookup? name = some a
  address_inj : ∀ {name other : String} {a : Address},
    s.lookup? name = some a → s.lookup? other = some a → name = other
  address_lt : ∀ {name : String} {a : Address},
    s.lookup? name = some a → a.index.toNat < s.capacity
  /-- No slot is in use, or the last one is. -/
  capacity_eq : s.capacity = 0 ∨
    ∃ name a, s.lookup? name = some a ∧ s.capacity = a.index.toNat + 1
  resolve_known : ∀ {name : String} {a : Address} (explicit : Bool),
    s.lookup? name = some a → s.resolve explicit name = some (a, s)
  resolve_explicit : ∀ {name : String}, s.lookup? name = none →
    s.resolve true name = some (Address.none, s) ∧ ∀ other, s.lookup? other ≠ some Address.none
  resolve_fresh : ∀ {name : String}, s.lookup? name = none →
    ∃ a after, s.resolve false name = some (a, after) ∧
      s.IsFree a.index.toNat ∧ (∀ i, i < a.index.toNat → ¬ s.IsFree i) ∧
      after.lookup? name = some a ∧ after.get name = nan ∧
      ∀ other, other ≠ name → s.SameVariable after other
  delete_unknown : ∀ {name : String}, s.lookup? name = none → s.delete name = some (false, s)
  delete_known : ∀ {name : String}, s.lookup? name ≠ none →
    ∃ after, s.delete name = some (true, after) ∧ after.lookup? name = none ∧
      ∀ other, other ≠ name → s.SameVariable after other

section

variable {s after : Store} {name : String} (c : s.Consistent) (small : s.capacity ≤ UInt32.size)
include c small

theorem get_environment : s.environment.get name = s.get name := by
  rw [Environment.get, lookup?_environment c small, get]
  cases s.lookup? name with
  | none => rfl
  | some a => exact value_environment c.size_labels a

theorem isFree_iff_environment {i : Nat} : s.IsFree i ↔ s.environment.IsFree i := by
  simp only [IsFree, Environment.IsFree, lookup?_environment c small]

theorem sameVariable_of_environment (c' : after.Consistent) (small' : after.capacity ≤ UInt32.size)
    (h : s.environment.SameVariable after.environment name) : s.SameVariable after name := by
  rw [Environment.SameVariable, lookup?_environment c small, lookup?_environment c' small',
    get_environment c small, get_environment c' small'] at h
  exact h

end

theorem resolve_known {s : Store} {name : String} {a : Address} (h : s.lookup? name = some a)
    (explicit : Bool) : s.resolve explicit name = some (a, s) := by
  rw [resolve, h]

theorem resolve_explicit {s : Store} {name : String} (h : s.lookup? name = none) :
    s.resolve true name = some (Address.none, s) := by
  rw [resolve, h, if_pos rfl]

theorem delete_unknown {s : Store} {name : String} (h : s.lookup? name = none) :
    s.delete name = some (false, s) := by
  rw [lookup?] at h
  rw [delete, h]

section

variable {s : Store} {name : String} (c : s.Consistent)
include c

theorem address_lt {a : Address} (h : s.lookup? name = some a) : a.index.toNat < s.capacity := by
  rw [c.lookup?_iff, nameOf?, Option.join_eq_some_iff] at h
  have hlt := (Array.getElem?_eq_some_iff.1 h).1
  rwa [c.size_labels] at hlt

variable (small : s.capacity < UInt32.size)
include small

theorem exists_last (h : s.capacity ≠ 0) :
    ∃ name a, s.lookup? name = some a ∧ s.capacity = a.index.toNat + 1 := by
  have hsize : s.labels.size - 1 < s.labels.size := by
    rw [c.size_labels]
    exact Nat.sub_one_lt h
  have hback : s.labels.back? = some s.labels[s.labels.size - 1] := by
    rw [Array.back?_eq_getElem?, Array.getElem?_eq_getElem hsize]
  obtain ⟨name, hname⟩ : ∃ name, s.labels[s.labels.size - 1] = some name := by
    rw [← Option.ne_none_iff_exists']
    intro hnone
    rw [hnone] at hback
    exact c.last_named hback
  have hnumber : (UInt32.ofNat (s.labels.size - 1)).toNat = s.labels.size - 1 :=
    UInt32.toNat_ofNat_of_lt (by rw [c.size_labels] at hsize ⊢; exact Nat.lt_trans hsize small)
  refine ⟨name, ⟨UInt32.ofNat (s.labels.size - 1)⟩, ?_, ?_⟩
  · rw [c.lookup?_iff, nameOf?, hnumber, Array.getElem?_eq_getElem hsize, hname, Option.join_some]
  · rw [hnumber, c.size_labels]
    exact (Nat.succ_pred_eq_of_ne_zero h).symm

theorem resolve_fresh (h : s.lookup? name = none) :
    ∃ a after, s.resolve false name = some (a, after) ∧
      s.IsFree a.index.toNat ∧ (∀ i, i < a.index.toNat → ¬ s.IsFree i) ∧
      after.lookup? name = some a ∧ after.get name = nan ∧
      ∀ other, other ≠ name → s.SameVariable after other := by
  have small' := Nat.le_of_lt small
  obtain ⟨after, houtcome, hafter, hholds⟩ := refines_resolve c small false name
  have hcapacity : after.capacity ≤ UInt32.size := by
    rw [← capacity_environment hafter.size_labels, hholds]
    have := s.environment.capacity_resolveAs false name
    rw [capacity_environment c.size_labels] at this
    omega
  have hnew : s.environment.lookup? name = none := by rw [lookup?_environment c small', h]
  obtain ⟨a, env, hresolve, hfree, hleast, hfound, hvalue, hothers⟩ :=
    Environment.resolve_fresh (tidy_environment c small')
      (by rwa [capacity_environment c.size_labels]) hnew
  rw [hresolve] at houtcome hholds
  simp only at houtcome hholds
  subst hholds
  refine ⟨a, after, houtcome, (isFree_iff_environment c small').2 hfree, fun i hi => ?_, ?_, ?_,
    fun other hother => ?_⟩
  · rw [isFree_iff_environment c small']
    exact hleast i hi
  · rw [← lookup?_environment hafter hcapacity, hfound]
  · rw [← get_environment hafter hcapacity, hvalue]
  · exact sameVariable_of_environment c small' hafter hcapacity (hothers other hother)

theorem delete_known (h : s.lookup? name ≠ none) :
    ∃ after, s.delete name = some (true, after) ∧ after.lookup? name = none ∧
      ∀ other, other ≠ name → s.SameVariable after other := by
  have small' := Nat.le_of_lt small
  rw [← lookup?_environment c small'] at h
  obtain ⟨env, hdelete, hgone, hothers⟩ := Environment.delete_known (tidy_environment c small')
    (by rwa [capacity_environment c.size_labels]) h
  obtain ⟨after, houtcome, hafter, hholds⟩ := refines_delete c small' name
  rw [hdelete] at houtcome hholds
  simp only at houtcome hholds
  subst hholds
  have hcapacity : after.capacity ≤ UInt32.size := by
    have hle := Environment.capacity_delete?_le hdelete
    rw [capacity_environment hafter.size_labels, capacity_environment c.size_labels] at hle
    exact Nat.le_trans hle small'
  refine ⟨after, houtcome, ?_, fun other hother => ?_⟩
  · rw [← lookup?_environment hafter hcapacity, hgone]
  · exact sameVariable_of_environment c small' hafter hcapacity (hothers other hother)

theorem allocates : s.Allocates where
  nameOf?_iff := c.lookup?_iff.symm
  address_inj h h' := by
    rw [c.lookup?_iff] at h h'
    exact Option.some.inj (h.symm.trans h')
  address_lt := address_lt c
  capacity_eq := or_iff_not_imp_left.2 (exists_last c small)
  resolve_known explicit h := resolve_known h explicit
  resolve_explicit h := by
    refine ⟨resolve_explicit h, fun other hother => ?_⟩
    have hlt := address_lt c hother
    have hnone : Address.none.index.toNat = UInt32.size - 1 := rfl
    omega
  resolve_fresh := resolve_fresh c small
  delete_unknown := delete_unknown
  delete_known := delete_known c small

end

section

variable {s after : Store} {name other : String} {a : Address} (c : s.Consistent)
  (small : s.capacity < UInt32.size) (h : s.lookup? name = some a)
include c small h

theorem lookup?_of_resolve {explicit : Bool} {b : Address}
    (houtcome : s.resolve explicit other = some (b, after)) : after.lookup? name = some a := by
  cases hother : s.lookup? other with
  | some d =>
    rw [resolve_known hother] at houtcome
    cases houtcome
    exact h
  | none =>
    cases explicit with
    | true =>
      rw [resolve_explicit hother] at houtcome
      cases houtcome
      exact h
    | false =>
      obtain ⟨d, found, hfound, -, -, -, -, hothers⟩ := resolve_fresh c small hother
      rw [hfound] at houtcome
      cases houtcome
      rw [(hothers name (by rintro rfl; rw [h] at hother; cases hother)).1, h]

theorem lookup?_of_delete {known : Bool} (hne : other ≠ name)
    (houtcome : s.delete other = some (known, after)) : after.lookup? name = some a := by
  by_cases hother : s.lookup? other = none
  · rw [delete_unknown hother] at houtcome
    cases houtcome
    exact h
  · obtain ⟨found, hfound, -, hothers⟩ := delete_known c small hother
    rw [hfound] at houtcome
    cases houtcome
    rw [(hothers name hne.symm).1, h]

end

/-! Commands -/

/-- What may be done to a store. Looking something up does nothing to it, and what is set through an
open binding is set at its address. -/
inductive Command
  | resolve (explicit : Bool) (name : String)
  | set (name : String) (value : Float)
  | setValue (a : Address) (value : Float)
  | delete (name : String)
  /-- Open a binding of the address. -/
  | bind (a : Address)
  /-- Close the innermost open binding. -/
  | release
  | define (name : String) (argc : UInt32) (body : Expression)
  | remove (name : String)
  deriving DecidableEq

structure Session where
  store : Store
  saved : List (Address × Float)

namespace Session

def step (t : Session) : Command → Option Session
  | .resolve explicit name => (t.store.resolve explicit name).map fun r => { t with store := r.2 }
  | .set name v => (t.store.set name v).map fun r => { t with store := r.2 }
  | .setValue a v => some { t with store := t.store.setValue a v }
  | .delete name => (t.store.delete name).map fun r => { t with store := r.2 }
  | .bind a => some { t with saved := (a, t.store.value a) :: t.saved }
  | .release =>
    match t.saved with
    | [] => some t
    | (a, v) :: saved => some ⟨t.store.setValue a v, saved⟩
  | .define name argc body => (t.store.define name argc body).map fun r => { t with store := r.2 }
  | .remove name => (t.store.remove name).map fun r => { t with store := r.2 }

def runFrom (t : Session) (commands : List Command) : Option Session :=
  commands.foldlM step t

def HasRoom (t : Session) (commands : List Command) : Prop :=
  ∀ before ∈ commands.inits, ∀ mid ∈ t.runFrom before,
    mid.store.capacity < UInt32.size ∧ mid.store.functionCount < UInt32.size

theorem runFrom_append {t mid : Session} {before : List Command} (h : t.runFrom before = some mid)
    (more : List Command) : t.runFrom (before ++ more) = mid.runFrom more := by
  rw [runFrom, List.foldlM_append, ← runFrom, h]
  rfl

theorem HasRoom.now {t : Session} {commands : List Command} (room : t.HasRoom commands) :
    t.store.capacity < UInt32.size ∧ t.store.functionCount < UInt32.size :=
  room [] ((List.mem_inits _ _).2 List.nil_prefix) t rfl

theorem HasRoom.before {t : Session} {before more : List Command}
    (room : t.HasRoom (before ++ more)) : t.HasRoom before := by
  intro first hfirst
  rw [List.mem_inits] at hfirst
  exact room first ((List.mem_inits _ _).2 (hfirst.trans (List.prefix_append before more)))

theorem HasRoom.after {t mid : Session} {before more : List Command}
    (room : t.HasRoom (before ++ more)) (h : t.runFrom before = some mid) : mid.HasRoom more := by
  intro later hlater final hfinal
  refine room (before ++ later) ?_ final ?_
  · rw [List.mem_inits] at hlater ⊢
    exact (List.prefix_append_right_inj before).2 hlater
  · rw [runFrom_append h]
    exact hfinal

/-- A command finds every slot that it reaches for, keeps the collections in step, and a name its
address unless it is deleted. -/
theorem exists_step {t : Session} (c : t.store.Consistent)
    (small : t.store.capacity < UInt32.size ∧ t.store.functionCount < UInt32.size)
    (command : Command) : ∃ after, t.step command = some after ∧ after.store.Consistent ∧
      ∀ {name : String} {a : Address}, t.store.lookup? name = some a → command ≠ .delete name →
        after.store.lookup? name = some a := by
  cases command with
  | resolve explicit other =>
    obtain ⟨after, houtcome, hafter, -⟩ := refines_resolve c small.1 explicit other
    refine ⟨_, by rw [step, houtcome, Option.map_some], hafter, fun h _ => ?_⟩
    exact lookup?_of_resolve c small.1 h houtcome
  | set other v =>
    obtain ⟨after, houtcome, hafter, -⟩ := refines_resolve c small.1 false other
    refine ⟨_, by rw [step, set, houtcome]; rfl, consistent_setValue hafter _ v,
      fun {name a} h _ => ?_⟩
    have hkept : after.lookup? name = some a := lookup?_of_resolve c small.1 h houtcome
    exact hkept
  | setValue a v => exact ⟨_, rfl, consistent_setValue c a v, fun h _ => h⟩
  | delete other =>
    obtain ⟨after, houtcome, hafter, -⟩ := refines_delete c (Nat.le_of_lt small.1) other
    refine ⟨_, by rw [step, houtcome, Option.map_some], hafter, fun h hne => ?_⟩
    exact lookup?_of_delete c small.1 h (fun heq => hne (by rw [heq])) houtcome
  | bind a => exact ⟨_, rfl, c, fun h _ => h⟩
  | release =>
    rw [step]
    split
    · exact ⟨_, rfl, c, fun h _ => h⟩
    · exact ⟨_, rfl, consistent_setValue c _ _, fun h _ => h⟩
  | define other argc body =>
    obtain ⟨after, houtcome, hstores⟩ :=
      exists_stores_define c.toRegistered small.2 ⟨other, argc, body⟩
    refine ⟨_, by rw [step, houtcome, Option.map_some], hstores.consistent c, fun h _ => ?_⟩
    rw [lookup?, hstores.names]
    exact h
  | remove other =>
    cases hother : t.store.functionId? other with
    | none =>
      have houtcome : t.store.remove other = some (false, t.store) := by
        rw [functionId?] at hother
        rw [remove, hother]
      exact ⟨t, by rw [step, houtcome, Option.map_some], c, fun h _ => h⟩
    | some f =>
      obtain ⟨after, houtcome, hstores⟩ := exists_stores_remove c.toRegistered hother
      refine ⟨_, by rw [step, houtcome, Option.map_some], hstores.consistent c, fun h _ => ?_⟩
      rw [lookup?, hstores.names]
      exact h

theorem exists_runFrom (commands : List Command) : ∀ {t : Session}, t.store.Consistent →
    t.HasRoom commands → ∃ after, t.runFrom commands = some after ∧ after.store.Consistent ∧
      ∀ {name : String} {a : Address}, t.store.lookup? name = some a → .delete name ∉ commands →
        after.store.lookup? name = some a := by
  induction commands with
  | nil => exact fun {t} c _ => ⟨t, rfl, c, fun h _ => h⟩
  | cons command commands ih =>
    intro t c room
    obtain ⟨mid, hmid, cmid, hkept⟩ := exists_step c room.now command
    have hfirst : t.runFrom [command] = some mid := by
      rw [runFrom, List.foldlM_cons, hmid]
      rfl
    have room' : mid.HasRoom commands := @HasRoom.after t mid [command] commands room hfirst
    obtain ⟨after, hafter, cafter, hkept'⟩ := ih cmid room'
    refine ⟨after, ?_, cafter, fun h hnot => ?_⟩
    · rw [← List.singleton_append, runFrom_append hfirst, hafter]
    · rw [List.mem_cons, not_or] at hnot
      exact hkept' (hkept h (Ne.symm hnot.1)) hnot.2

end Session

def start : Session := ⟨empty, []⟩

/-- After any commands, with less slots than addresses at all times, every slot that is reached for is
there, and the variables behave as an allocator. Whatever commands follow, a name keeps its address as
long as it is not deleted. -/
theorem run_allocates (commands : List Command) (room : start.HasRoom commands) :
    ∃ t, start.runFrom commands = some t ∧ t.store.Allocates ∧
      ∀ more, start.HasRoom (commands ++ more) →
        ∃ later, start.runFrom (commands ++ more) = some later ∧ ∀ name a,
          t.store.lookup? name = some a → Command.delete name ∉ more →
            later.store.lookup? name = some a := by
  obtain ⟨t, ht, c, -⟩ := Session.exists_runFrom commands consistent_empty room
  have small := room commands ((List.mem_inits _ _).2 List.prefix_rfl) t ht
  refine ⟨t, ht, allocates c small.1, fun more room' => ?_⟩
  obtain ⟨later, hlater, -, hkept⟩ := Session.exists_runFrom more c (room'.after ht)
  refine ⟨later, ?_, fun name a h hnot => hkept h hnot⟩
  rw [Session.runFrom_append ht, hlater]

/-- Four names, of which the inner two are deleted, and one is given their place while another is
bound. -/
def reuse : List Command :=
  [.set "a" 1.0, .set "b" 2.0, .set "c" 3.0, .set "d" 4.0, .delete "c", .delete "b", .bind ⟨3⟩,
    .setValue ⟨3⟩ 9.0, .set "e" 5.0, .release]

/-- The new name has the smaller of the two places; once it and the last name are deleted only the
first is left, at its address. -/
theorem run_allocates_reuse : start.HasRoom reuse ∧ ∃ t, start.runFrom reuse = some t ∧
    t.store.Allocates ∧ t.store.lookup? "e" = some ⟨1⟩ ∧ t.store.get "d" = 4.0 ∧
      ∃ later, start.runFrom (reuse ++ [.delete "e", .delete "d"]) = some later ∧
        later.store.lookup? "a" = some ⟨0⟩ ∧ later.store.capacity = 1 := by
  have room : start.HasRoom (reuse ++ [.delete "e", .delete "d"]) := by
    unfold Session.HasRoom
    decide +kernel
  have hvalues : (start.runFrom reuse).map (fun t => (t.store.lookup? "e", t.store.get "d"))
      = some (some ⟨1⟩, 4.0) := by decide +kernel
  have hnames : (start.runFrom reuse).bind (·.store.lookup? "a") = some ⟨0⟩ := by decide +kernel
  have hcapacity : (start.runFrom (reuse ++ [.delete "e", .delete "d"])).map (·.store.capacity)
      = some 1 := by decide +kernel
  obtain ⟨t, ht, hallocates, hkept⟩ := run_allocates reuse room.before
  obtain ⟨later, hlater, haddress⟩ := hkept _ room
  rw [ht, Option.map_some, Option.some.injEq, Prod.mk.injEq] at hvalues
  rw [ht, Option.bind_some] at hnames
  rw [hlater, Option.map_some, Option.some.injEq] at hcapacity
  exact ⟨room.before, t, ht, hallocates, hvalues.1, hvalues.2, later, hlater,
    haddress "a" ⟨0⟩ hnames (by decide), hcapacity⟩

end Store

end PrefixCalculus
