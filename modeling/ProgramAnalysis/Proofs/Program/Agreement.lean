import Mathlib.Data.Set.Basic
import ProgramAnalysis.Proofs.Program.Lookup
import ProgramAnalysis.Proofs.Program.WellFormed

/-! Programs that agree on the bodies of some methods. The hierarchy, method lookup and signatures do
not depend on bodies at all. -/
namespace ProgramAnalysis

def MethodDecl.withoutBody (d : MethodDecl) : MethodDecl := { d with body := none }

namespace Program

/-- The declarations alone: arenas, hierarchy, entry and root. -/
def withoutBodies (p : Program) : Program :=
  { p with methods := p.methods.map MethodDecl.withoutBody }

variable {p p' : Program} {m : MethodId} {R : Set MethodId}

/-! ### What declarations decide -/

theorem method?_withoutBodies (p : Program) (m : MethodId) :
    p.withoutBodies.method? m = (p.method? m).map MethodDecl.withoutBody := by
  simp [method?, withoutBodies]

theorem getMethod_withoutBodies (p : Program) (m : MethodId) :
    p.withoutBodies.getMethod m = MethodDecl.withoutBody <$> p.getMethod m := by
  unfold getMethod
  rw [method?_withoutBodies]
  cases p.method? m <;> rfl

theorem lookupFrom_withoutBodies (p : Program) {subsignature : String} {accept : MethodDecl → Bool}
    (haccept : ∀ d, accept (MethodDecl.withoutBody d) = accept d) (fuel : Nat) (c? : Option ClassId)
    (seen : List ClassId) : p.withoutBodies.lookupFrom subsignature accept fuel c? seen =
      p.lookupFrom subsignature accept fuel c? seen := by
  induction fuel generalizing c? seen with
  | zero => rfl
  | succ fuel ih =>
    cases c? with
    | none => rfl
    | some c =>
      have hclass : p.withoutBodies.getClass c = p.getClass c := rfl
      simp only [lookupFrom, hclass, getMethod_withoutBodies, ih]
      cases p.getClass c with
      | error e => rfl
      | ok d =>
        dsimp only [bind, Except.bind]
        cases d.declared? subsignature with
        | none => rfl
        | some k =>
          dsimp only
          cases p.getMethod k with
          | error e => rfl
          | ok decl => simp only [Functor.map, Except.map, haccept]

theorem dispatch_withoutBodies (p : Program) : p.withoutBodies.dispatch = p.dispatch := by
  funext c s
  exact p.lookupFrom_withoutBodies (fun _ => rfl) _ _ _

theorem resolve_withoutBodies (p : Program) : p.withoutBodies.resolve = p.resolve := by
  funext c s
  exact p.lookupFrom_withoutBodies (fun _ => rfl) _ _ _

theorem subtypes_withoutBodies (p : Program) : p.withoutBodies.subtypes = p.subtypes := rfl

theorem getSignature_withoutBodies (p : Program) (m : MethodId) :
    p.withoutBodies.getSignature m = p.getSignature m := by
  have hclass : ∀ c, p.withoutBodies.getClass c = p.getClass c := fun _ => rfl
  simp only [getSignature, getMethod_withoutBodies, hclass]
  cases p.getMethod m <;> rfl

theorem size_of_withoutBodies (h : p'.withoutBodies = p.withoutBodies) :
    p'.methods.size = p.methods.size := by
  have hsize := congrArg (fun q : Program => q.methods.size) h
  simpa [withoutBodies] using hsize

theorem getSignature_of_withoutBodies (h : p'.withoutBodies = p.withoutBodies) (m : MethodId) :
    p'.getSignature m = p.getSignature m := by
  rw [← p'.getSignature_withoutBodies, h, p.getSignature_withoutBodies]

theorem eq_of_withoutBodies (h : p'.withoutBodies = p.withoutBodies)
    (hbody : ∀ m, p'.body? m = p.body? m) : p' = p := by
  have hmethods : p'.methods = p.methods := by
    refine Array.ext (size_of_withoutBodies h) fun i hi' hi => ?_
    have hdecl : p'.methods[i].withoutBody = p.methods[i].withoutBody := by
      have hget := p'.method?_withoutBodies ⟨i⟩
      rw [h, p.method?_withoutBodies] at hget
      simpa [method?, hi, hi'] using hget.symm
    have hsame : p'.methods[i].body = p.methods[i].body := by
      simpa [body?, method?, hi, hi'] using hbody ⟨i⟩
    generalize p'.methods[i] = d' at hdecl hsame
    generalize p.methods[i] = d at hdecl hsame
    cases d'
    cases d
    simp_all [MethodDecl.withoutBody]
  cases p'
  cases p
  simp_all [withoutBodies]

/-! ### Agreement -/

/-- What succeeds in `p` gives the same in `p'`, where bodies are asked for of methods of `R` only.
Variables count only if the method that they are declared for exists. -/
structure CoveredBy (R : Set MethodId) (p p' : Program) : Prop where
  size : p'.methods.size = p.methods.size
  var : ∀ {v d}, p.var? v = some d → d.method.index < p.methods.size → p'.var? v = some d
  root : p'.root = p.root
  dispatch : ∀ {c s found}, p.dispatch c s = .ok found → p'.dispatch c s = .ok found
  resolve : ∀ {c s found}, p.resolve c s = .ok found → p'.resolve c s = .ok found
  body : ∀ m ∈ R, p'.body? m = p.body? m

/-- Variables are the same also if they are declared for methods that do not exist. -/
structure Agrees (R : Set MethodId) (p p' : Program) : Prop extends CoveredBy R p p' where
  vars : p'.vars = p.vars

theorem CoveredBy.refl (R : Set MethodId) (p : Program) : CoveredBy R p p :=
  ⟨rfl, fun h _ => h, rfl, id, id, fun _ _ => rfl⟩

theorem Agrees.refl (R : Set MethodId) (p : Program) : Agrees R p p := ⟨.refl R p, rfl⟩

theorem CoveredBy.trans {p'' : Program} (h : CoveredBy R p p') (h' : CoveredBy R p' p'') :
    CoveredBy R p p'' where
  size := h'.size.trans h.size
  var hv hlt := h'.var (h.var hv hlt) (h.size ▸ hlt)
  root := h'.root.trans h.root
  dispatch := h'.dispatch ∘ h.dispatch
  resolve := h'.resolve ∘ h.resolve
  body m hm := (h'.body m hm).trans (h.body m hm)

theorem Agrees.trans {p'' : Program} (h : Agrees R p p') (h' : Agrees R p' p'') :
    Agrees R p p'' :=
  ⟨h.toCoveredBy.trans h'.toCoveredBy, h'.vars.trans h.vars⟩

theorem agrees_of_withoutBodies (h : p'.withoutBodies = p.withoutBodies)
    (hbody : ∀ m ∈ R, p'.body? m = p.body? m) : Agrees R p p' where
  size := size_of_withoutBodies h
  var hv _ := by
    have hvars : p'.vars = p.vars := (congrArg Program.vars h :)
    rwa [var?, hvars]
  vars := (congrArg Program.vars h :)
  root := (congrArg Program.root h :)
  dispatch hc := by rwa [← p'.dispatch_withoutBodies, h, p.dispatch_withoutBodies]
  resolve hc := by rwa [← p'.resolve_withoutBodies, h, p.resolve_withoutBodies]
  body := hbody

theorem Agrees.getVar (h : Agrees R p p') (v : VarId) : p'.getVar v = p.getVar v := by
  unfold Program.getVar var?
  rw [h.vars]

theorem CoveredBy.getBody (h : CoveredBy R p p') (hm : m ∈ R) : p'.getBody m = p.getBody m := by
  by_cases hlt : m.index < p.methods.size
  · rw [getBody_eq hlt, getBody_eq (h.size ▸ hlt), h.body m hm]
  · have hnone : p.method? m = none := Array.getElem?_eq_none (Nat.le_of_not_lt hlt)
    have hnone' : p'.method? m = none :=
      Array.getElem?_eq_none (Nat.le_of_not_lt (h.size.symm ▸ hlt))
    simp only [Program.getBody, getMethod, hnone, hnone']

/-- The variables that bodies of methods in `R` mention are declared for methods in `R`. -/
def Confines (R : Set MethodId) (p : Program) : Prop :=
  ∀ m b v, m ∈ R → p.body? m = some b → b.Mentions v → ∀ k, p.Owns k v → k ∈ R

theorem confines_univ (p : Program) : p.Confines Set.univ := fun _ _ _ _ _ _ _ _ => trivial

theorem Accepted.wellFormed (h : p.Accepted) (hthis : p.OwnsThis) (hparams : p.OwnsParams) :
    p.WellFormed := by
  obtain ⟨b, -, hbuild⟩ := h
  exact wellFormed_iff.mpr ⟨(Builder.build_ok_iff_checked.mp hbuild).2, hthis, hparams⟩

theorem WellFormed.confines (h : p.WellFormed) (R : Set MethodId) : p.Confines R := by
  intro m b v hm hb hv k hk
  exact (h.mentioned hb hv).unique hk ▸ hm

end Program
end ProgramAnalysis
