import Mathlib.Data.List.Induction
import ProgramAnalysis.Proofs.PointsTo.Agreement

/-! Programs with their variables declared anew. What the builder accepts does not depend on the
variables that no statement mentions, and a lookup of a method depends on none. So every accepted
program is covered by one that has its class handles in range and its bound variables declared for
methods that exist: what the solver does on the one without failing, it does on the other. -/
namespace ProgramAnalysis

namespace Builder

variable {b b' : Builder} {c : ClassId} {m : MethodId}

theorem modifyClass_withVars {f : ClassDecl → ClassDecl} (h : b.modifyClass c f = .ok b')
    (vars : Array VarDecl) : modifyClass { b with vars } c f = .ok { b' with vars } := by
  unfold modifyClass at h ⊢
  split at h
  · next hlt =>
    cases h
    exact if_pos hlt
  · cases h

theorem pushMethod_withVars {decl : MethodDecl} (h : b.pushMethod decl = .ok (m, b'))
    (vars : Array VarDecl) : pushMethod { b with vars } decl = .ok (m, { b' with vars }) := by
  obtain ⟨b₁, hc, h⟩ := bind_ok_iff.mp h
  cases h
  exact bind_ok_iff.mpr ⟨{ b₁ with vars }, modifyClass_withVars hc vars, rfl⟩

theorem setBody_withVars {body : Body} (h : b.setBody m body = .ok b') (vars : Array VarDecl) :
    setBody { b with vars } m body = .ok { b' with vars } := by
  unfold setBody at h ⊢
  split at h
  · next hlt =>
    cases h
    exact if_pos hlt
  · cases h

theorem built_vars (vars : List VarDecl) : Built { empty with vars := vars.toArray } := by
  induction vars using List.reverseRecOn with
  | nil => exact .empty
  | append_singleton vars d ih =>
    have h := ih.addVar d.method d.name d.ty
    rwa [← List.push_toArray]

/-- Variables are declared independently of everything else. -/
theorem Built.withVars (h : b.Built) (vars : Array VarDecl) : Built { b with vars } := by
  induction h with
  | empty => exact built_vars vars.toList
  | addClass name superclass _ ih => exact ih.addClass name superclass
  | addInterface name supers _ ih => exact ih.addInterface name supers
  | implement _ hb ih => exact ih.implement (modifyClass_withVars hb vars)
  | setAbstract _ hb ih => exact ih.setAbstract (modifyClass_withVars hb vars)
  | setRoot c _ ih => exact ih.setRoot c
  | addField _ hb ih =>
    obtain ⟨b₁, hc, hb⟩ := bind_ok_iff.mp hb
    cases hb
    exact ih.addField (bind_ok_iff.mpr ⟨_, modifyClass_withVars hc vars, rfl⟩)
  | addMethod _ hb ih => exact ih.addMethod (pushMethod_withVars hb vars)
  | addAbstractMethod _ hb ih => exact ih.addAbstractMethod (pushMethod_withVars hb vars)
  | addVar _ _ _ _ ih => exact ih
  | setBody _ hb ih => exact ih.setBody (setBody_withVars hb vars)
  | setEntry m _ ih => exact ih.setEntry m

end Builder

namespace Program

variable {p : Program} {vars : Array VarDecl} {R : Set MethodId}

/-! ### Other variables -/

/-- The variables of `p` that are declared for methods of `p` are among `vars`, in their places. -/
def KeepsVars (p : Program) (vars : Array VarDecl) : Prop :=
  ∀ {v d}, p.var? v = some d → d.method.index < p.methods.size → vars[v.index]? = some d

theorem Accepted.withVars (h : p.Accepted) (hvars : p.KeepsVars vars) :
    Accepted { p with vars } := by
  obtain ⟨b, hb, hbuild⟩ := h
  obtain ⟨rfl, hchecked⟩ := Builder.build_ok_iff_checked.mp hbuild
  refine ⟨{ b with vars }, hb.withVars vars, Builder.build_ok_iff_checked.mpr ⟨rfl, ?_⟩⟩
  refine ⟨hchecked.concrete, hchecked.static, hchecked.jumps, fun hb hs hv => ?_, hchecked.entry⟩
  obtain ⟨d, hd, rfl⟩ := hchecked.owned hb hs hv
  exact ⟨d, hvars hd (lt_of_body? hb), rfl⟩

theorem lookupFrom_withVars (p : Program) (vars : Array VarDecl) :
    lookupFrom { p with vars } = p.lookupFrom := by
  funext s accept fuel c? seen
  induction fuel generalizing c? seen with
  | zero => rfl
  | succ fuel ih =>
    cases c? with
    | none => rfl
    | some c =>
      simp only [lookupFrom, ih]
      rfl

theorem coveredBy_withVars (hvars : p.KeepsVars vars) : p.CoveredBy R { p with vars } where
  size := rfl
  var := hvars
  root := rfl
  dispatch h := by rwa [dispatch, lookupFrom_withVars]
  resolve h := by rwa [resolve, lookupFrom_withVars]
  body _ _ := rfl

/-! ### Bound variables that are declared -/

def boundVars (p : Program) : List VarId :=
  p.methods.toList.flatMap fun d => d.body.toList.flatMap fun b => b.this.toList ++ b.params

theorem mem_boundVars {m : MethodId} {b : Body} {v : VarId} (hb : p.body? m = some b)
    (hv : b.Binds v) : v ∈ p.boundVars := by
  obtain ⟨d, hd, hbody⟩ := body?_eq_some_iff.mp hb
  refine List.mem_flatMap.mpr ⟨d, Array.mem_toList_iff.mpr (Array.mem_of_getElem? hd), ?_⟩
  refine List.mem_flatMap.mpr ⟨b, Option.mem_toList.mpr hbody, List.mem_append.mpr ?_⟩
  exact hv.imp_left Option.mem_toList.mpr

/-- A variable that is declared for no method of the program goes to the first one. -/
def adopted (p : Program) (i : Nat) : VarDecl :=
  (p.vars[i]?.filter fun d => d.method.index < p.methods.size).getD ⟨"", .null, ⟨0⟩⟩

theorem adopted_eq {v : VarId} {d : VarDecl} (hd : p.var? v = some d)
    (hlt : d.method.index < p.methods.size) : p.adopted v.index = d := by
  have hget : p.vars[v.index]? = some d := hd
  have hkept : (some d).filter (fun d => d.method.index < p.methods.size) = some d :=
    Option.filter_eq_some_iff.mpr ⟨rfl, by simpa using hlt⟩
  rw [adopted, hget, hkept]
  rfl

theorem adopted_lt (p : Program) (hpos : 0 < p.methods.size) (i : Nat) :
    (p.adopted i).method.index < p.methods.size := by
  unfold adopted
  cases hd : p.vars[i]?.filter fun d => d.method.index < p.methods.size with
  | none => exact hpos
  | some d => simpa using (Option.filter_eq_some_iff.mp hd).2

theorem exists_declared (ha : p.Accepted) : ∃ vars : Array VarDecl, Accepted { p with vars } ∧
    BindsDeclared { p with vars } ∧ ∀ R, p.CoveredBy R { p with vars } := by
  let n := p.vars.size + total (p.boundVars.map fun v => v.index) + 1
  let vars := ((List.range n).map p.adopted).toArray
  have hget : ∀ {i}, i < n → vars[i]? = some (p.adopted i) := fun {i} hi => by
    simp [vars, hi]
  have hvars : p.KeepsVars vars := fun {v d} hd hlt => by
    have hv : v.index < p.vars.size := (Array.getElem?_eq_some_iff.mp hd).1
    rw [hget (by omega), adopted_eq hd hlt]
  refine ⟨vars, ha.withVars hvars, fun m b v hb hv => ?_, fun R => coveredBy_withVars hvars⟩
  have hle : v.index ≤ total (p.boundVars.map fun v => v.index) :=
    le_total (List.mem_map.mpr ⟨v, mem_boundVars hb hv, rfl⟩)
  have hpos : 0 < p.methods.size := Nat.zero_lt_of_lt (lt_of_body? hb)
  exact ⟨_, ⟨_, hget (by omega), rfl⟩, p.adopted_lt hpos v.index⟩

/-- Class handles in range, and bound variables that are declared. -/
theorem exists_completed (ha : p.Accepted) : ∃ (classes : Array ClassDecl) (vars : Array VarDecl),
    Accepted { p with classes, vars } ∧ ClassesInRange { p with classes, vars } ∧
      BindsDeclared { p with classes, vars } ∧ ∀ R, p.CoveredBy R { p with classes, vars } := by
  obtain ⟨classes, hpadded, hc, hagrees⟩ := p.exists_padded ha
  obtain ⟨vars, haccepted, hdeclared, hcovered⟩ := exists_declared hpadded
  refine ⟨classes, vars, haccepted, ?_, hdeclared, fun R => ?_⟩
  · exact ⟨hc.superclass, hc.interface, hc.root, hc.call, hc.allocation⟩
  · exact (hagrees R).toCoveredBy.trans (hcovered R)

end Program

namespace PointsTo

variable {q : Problem} {p' : Program}

theorem tied_univ (p : Program) (s : State) : Tied p Set.univ s :=
  ⟨fun _ _ _ _ _ => trivial, fun _ => trivial, fun _ => trivial⟩

theorem step_of_covered (h : q.program.CoveredBy Set.univ p') {s : State} {r : Bool × State}
    (hstep : (step q s).result = .ok r) : (step (q.on p') s).result = .ok r := by
  obtain ⟨hsame, -⟩ := (keeps_step h q.program.confines_univ s).same (tied_univ q.program s) r
    hstep (Set.subset_univ _)
  rw [hsame]
  exact hstep

end PointsTo
end ProgramAnalysis
