import PrefixCalculus.Proofs.OpenNodes
import PrefixCalculus.Proofs.TextLength
set_option autoImplicit false

/-!
The names in the text of a definition. Every name is scanned from the text, so it is an identifier, and
a function that the body calls is called by one of them. Main statement: the name of an accepted
heading is an identifier that means nothing else, and so is the name by which any function is called in
the body.
-/

namespace PrefixCalculus

namespace Token

theorem isIdentifier_of_scan? {cs : List Char} {s : Scanned} (hs : scan? cs = some s) {name : String}
    (hname : s.token = .name name) : isIdentifier name = true := by
  cases cs with
  | nil => cases hs
  | cons c cs =>
    simp only [scan?] at hs
    split at hs
    · cases hs
      cases hname
    · split at hs
      next hstart =>
        cases hs
        cases hname
        rw [isIdentifier, String.toList_ofList]
        simp only [hstart, Bool.true_and, List.all_eq_true]
        intro d hd
        rw [List.span_eq_takeWhile_dropWhile] at hd
        exact List.mem_takeWhile_imp hd
      · obtain ⟨⟨t, rest⟩, hsign, rfl⟩ := Option.map_eq_some_iff.1 hs
        unfold scanSign? at hsign
        split at hsign <;> cases hsign <;> cases hname

theorem Lexes.isIdentifier {cs : List Char} {ts : List Token} (h : Lexes cs ts) {name : String}
    (hname : .name name ∈ ts) : isIdentifier name = true := by
  induction h with
  | nil => cases hname
  | blank _ _ ih => exact ih hname
  | token hs _ ih =>
    rcases List.mem_cons.1 hname with hname | hname
    · exact isIdentifier_of_scan? hs hname.symm
    · exact ih hname

end Token

theorem isIdentifier_of_tokensOf {text : String} {ts : List Token} (h : tokensOf text = .ok ts)
    {name : String} (hname : .name name ∈ ts) : Token.isIdentifier name = true := by
  have htext : Token.ofText text = .ok ts := by
    rw [tokensOf] at h
    split at h <;> cases h
    assumption
  exact ((Token.Lexes.ofText_eq_ok_iff (List.ne_nil_of_mem hname)).1 htext).isIdentifier hname

namespace Phrase

mutual

def callees : Phrase → List String
  | number _ | name _ | error => []
  | neg p | not p => p.callees
  | binary _ p q => p.callees ++ q.callees
  | call f args => f :: calleesAll args

def calleesAll : List Phrase → List String
  | [] => []
  | p :: ps => p.callees ++ calleesAll ps

end

mutual

theorem IsChain.callees {layers : List (List BinaryOp)} {ts : List Token} {p : Phrase} :
    IsChain layers ts p → ∀ f ∈ p.callees, Token.name f ∈ ts
  | .tightest h => h.callees
  | .single h => h.callees
  | .join _ hp hq => by
    intro f hf
    rcases List.mem_append.1 hf with hf | hf
    · exact List.mem_append_left _ (hp.callees f hf)
    · exact List.mem_append_right _ (List.mem_cons_of_mem _ (hq.callees f hf))

theorem IsPrefixed.callees {ts : List Token} {p : Phrase} :
    IsPrefixed ts p → ∀ f ∈ p.callees, Token.name f ∈ ts
  | .neg h | .not h => fun f hf => List.mem_cons_of_mem _ (h.callees f hf)
  | .power h => h.callees

theorem IsPower.callees {ts : List Token} {p : Phrase} :
    IsPower ts p → ∀ f ∈ p.callees, Token.name f ∈ ts
  | .atom h => h.callees
  | .raised hp hq => by
    intro f hf
    rcases List.mem_append.1 hf with hf | hf
    · exact List.mem_append_left _ (hp.callees f hf)
    · exact List.mem_append_right _ (List.mem_cons_of_mem _ (hq.callees f hf))

theorem IsAtom.callees {ts : List Token} {p : Phrase} :
    IsAtom ts p → ∀ f ∈ p.callees, Token.name f ∈ ts
  | .number _ | .name _ => fun f hf => by cases hf
  | .noArgs s => by simp [Phrase.callees, calleesAll]
  | .call s h => by
    intro f hf
    rcases List.mem_cons.1 hf with rfl | hf
    · exact List.mem_cons_self
    · exact List.mem_cons_of_mem _ (List.mem_cons_of_mem _
        (List.mem_append_left _ (h.calleesAll f hf)))
  | .group h => fun f hf =>
    List.mem_cons_of_mem _ (List.mem_append_left _ (h.callees f hf))

theorem IsArgs.calleesAll {ts : List Token} {ps : List Phrase} :
    IsArgs ts ps → ∀ f ∈ calleesAll ps, Token.name f ∈ ts
  | .one h => by simpa [Phrase.calleesAll] using h.callees
  | .more hp hps => by
    intro f hf
    rcases List.mem_append.1 hf with hf | hf
    · exact List.mem_append_left _ (hp.callees f hf)
    · exact List.mem_append_right _ (List.mem_cons_of_mem _ (hps.calleesAll f hf))

end

/-- The function is called by one of the names, which is that of a function. -/
def CalledBy (env : Environment) (names : List String) : Node → Prop
  | .call f _ => ∃ name ∈ names, NamesFunction name ∧ env.functionId? name = some f
  | _ => True

section

variable {scope : Scope} {env : Environment} {names : List String}

mutual

theorem Means.calledBy : ∀ {p : Phrase} {t : Term}, Means scope env p t → p.callees ⊆ names →
    ∀ n ∈ t.encode.openNodes, CalledBy env names n
  | _, _, .number _, _ | _, _, .literal _, _ => by simp
  | _, _, .name h, _ => by cases h <;> simp [CalledBy]
  | _, _, .neg _ h, hnames | _, _, .not h, hnames => by
    rw [callees] at hnames
    simpa only [Term.openNodes_unary] using h.calledBy hnames
  | _, _, .log10 _ h, hnames | _, _, .unaryCall _ h, hnames => by
    simp only [callees, calleesAll, List.cons_subset, List.append_subset] at hnames
    simpa only [Term.openNodes_unary] using h.calledBy hnames.2.1
  | _, _, .binary hp hq, hnames => by
    rw [callees, List.append_subset] at hnames
    simpa only [Term.openNodes_binary, List.forall_mem_append] using
      ⟨hp.calledBy hnames.1, hq.calledBy hnames.2⟩
  | _, _, .logBase _ hp hq, hnames | _, _, .binaryCall _ hp hq, hnames => by
    simp only [callees, calleesAll, List.cons_subset, List.append_subset] at hnames
    simpa only [Term.openNodes_binary, List.forall_mem_append] using
      ⟨hp.calledBy hnames.2.1, hq.calledBy hnames.2.2.1⟩
  | _, _, .branch _ hc hp hq, hnames => by
    simp only [callees, calleesAll, List.cons_subset, List.append_subset] at hnames
    obtain ⟨-, hc', hp', hq', -⟩ := hnames
    simpa only [Term.openNodes_branch, List.forall_mem_append] using
      ⟨⟨hc.calledBy hc', hp.calledBy hp'⟩, hq.calledBy hq'⟩
  | _, _, .loop _ _ _ hl hu hb, hnames => by
    simp only [callees, calleesAll, List.cons_subset, List.append_subset] at hnames
    obtain ⟨-, -, hl', hu', hb', -⟩ := hnames
    simpa only [Term.openNodes_loop, List.forall_mem_cons, List.forall_mem_append] using
      ⟨trivial, ⟨hl.calledBy hl', hu.calledBy hu'⟩, hb.calledBy hb'⟩
  | _, _, .call hf hid _ h, hnames => by
    simp only [callees, List.cons_subset] at hnames
    simpa only [Term.openNodes_call, List.forall_mem_cons] using
      ⟨⟨_, hnames.1, hf, hid⟩, h.calledBy hnames.2⟩

theorem MeansAll.calledBy : ∀ {ps : List Phrase} {ts : List Term}, MeansAll scope env ps ts →
    calleesAll ps ⊆ names →
    ∀ n ∈ ts.flatMap fun t => t.encode.openNodes, CalledBy env names n
  | _, _, .nil, _ => by simp
  | _, _, .cons h hs, hnames => by
    rw [calleesAll, List.append_subset] at hnames
    simpa only [List.flatMap_cons, List.forall_mem_append] using
      ⟨h.calledBy hnames.1, hs.calledBy hnames.2⟩

end

end

end Phrase

/-- The names in a definition are identifiers: that of the heading, and what the body calls. -/
theorem isIdentifier_of_definition {text : String} {h : Heading} {body : Phrase}
    (hdefinition : definitionOf text = .ok (h, body)) :
    Token.isIdentifier h.name = true ∧ ∀ f ∈ body.callees, Token.isIdentifier f = true := by
  obtain ⟨us, htext, hbody⟩ := definitionOf_eq_ok_iff.1 hdefinition
  have hname : Token.name h.name ∈ h.tokens ++ us := List.mem_cons_self
  refine ⟨isIdentifier_of_tokensOf htext hname, fun f hf => isIdentifier_of_tokensOf htext ?_⟩
  exact List.mem_append_right _ (Phrase.IsChain.callees hbody f hf)

end PrefixCalculus
