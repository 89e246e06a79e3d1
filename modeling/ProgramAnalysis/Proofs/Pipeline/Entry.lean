import ProgramAnalysis.Proofs.CallGraph.Indexed
import ProgramAnalysis.Proofs.Config.RoundTrip
import ProgramAnalysis.Proofs.Pipeline.Safety
import ProgramAnalysis.Proofs.Program.Signature

/-! A run can start at any method, as long as names are kept apart: the signature of the method is a
valid entry, it names no other method, and the call graph of the run has this one entry. -/
namespace ProgramAnalysis

/-- The searches add no entry to the one that they start with. -/
theorem CallGraph.stable_entries (p : Program) (ms : List MethodId) :
    CallGraph.Stable p (·.entries = ms) := by
  intro g e hg _
  rw [addReachable_entries, addEdge_entries, hg]

namespace Pipeline

variable {c : Config} {p : Program} {m : MethodId} {d : MethodDecl} {cls : ClassDecl}
  {calls : CallGraph} {pointsTo : Option PointsTo.Result}

theorem entries_callGraph (h : (callGraph c p m).result = .ok (calls, pointsTo)) :
    calls.entries = [m] := by
  have hstart : ((CallGraph.empty.addEntry m).addReachable m).entries = [m] :=
    CallGraph.addReachable_entries
  unfold callGraph at h
  split at h
  · obtain ⟨g, hbuild, h⟩ := Traced.bind_ok_iff.mp h
    cases h
    exact ClassHierarchy.stable_build (CallGraph.stable_entries p [m]) hstart _ hbuild
  · obtain ⟨r, hanalyze, h⟩ := Traced.bind_ok_iff.mp h
    cases h
    obtain ⟨s, hsolve, h⟩ := Traced.bind_ok_iff.mp hanalyze
    cases h
    obtain ⟨entry, hentry, -, hstable⟩ := PointsTo.stable_solve _ s hsolve
    cases hentry
    exact hstable _ (CallGraph.stable_entries p [m]) hstart

theorem validate_signature (hentry : c.callGraph.entry = some (Program.signature cls d))
    (hnamed : ¬ (cls.name = "" ∧ d.subsignature = "")) : c.callGraph.validate = .ok () := by
  rw [CallGraphConfig.validate, hentry]
  exact if_pos ((Program.isSignature_signature_iff cls d).mpr hnamed)

/-- The signature of a method names it, is a valid entry, and makes a run start at the method, which is
then the only entry of the call graph. -/
theorem signature_selects_entry (ha : p.Accepted) (hclasses : p.ClassesInRange)
    (hbinds : p.BindsDeclared) (hapart : p.NamesApart) (hm : p.method? m = some d)
    (hcls : p.class? d.cls = some cls) (hnamed : ¬ (cls.name = "" ∧ d.subsignature = "")) :
    ∃ s, p.getSignature m = .ok s ∧ p.methodOfSignature? s = some m ∧
      ∀ c : Config, c.callGraph.entry = some s → c.callGraph.validate = .ok () ∧
        ∃ r, (run c p).result = .ok r ∧ r.calls.entries = [m] := by
  have hnames := Program.methodOfSignature?_signature ha hapart hm hcls
  refine ⟨Program.signature cls d, Program.getSignature_eq hm hcls, hnames, fun c hc => ?_⟩
  have hvalid := validate_signature hc hnamed
  have hconfig : checkConfig c = .ok () := by rw [checkConfig, Config.validate_eq, hvalid]
  have hentry : entryOf c p = .ok m := by simp [entryOf, hc, hnames]
  obtain ⟨r, hr⟩ := run_total ha hclasses hbinds hconfig hentry
  obtain ⟨entry, _, _, hstages⟩ := run_ok_iff.mp hr
  cases hentry.symm.trans hstages.entered
  exact ⟨hvalid, r, hr, entries_callGraph hstages.called⟩

/-! ### Names made of separators

A class that ends in a colon declares a method that looks like a signature, and so does a class without
a name. -/

def separators : Builder where
  classes := #[⟨"<A>:", none, [], false, false, [("<: >", ⟨0⟩), ("x: y", ⟨1⟩)], []⟩,
    ⟨"", some ⟨0⟩, [], false, false, [("<: >", ⟨2⟩)], []⟩]
  fields := #[]
  methods := #[⟨"<: >", ⟨0⟩, false, true, none⟩,
    ⟨"x: y", ⟨0⟩, true, false, some ⟨none, [⟨0⟩], #[.ret (some ⟨0⟩)]⟩⟩, ⟨"<: >", ⟨1⟩, false, false, none⟩]
  vars := #[⟨"n", .int, ⟨1⟩⟩]
  entry := none
  root := none

theorem built_separators : separators.Built := by
  have h₁ := ((Builder.Built.empty.addClass "<A>:" none).addClass "" (some ⟨0⟩)).addAbstractMethod
    (rfl : Builder.addAbstractMethod _ ⟨0⟩ "<: >" = .ok (_, _))
  have h₂ := h₁.addMethod (rfl : Builder.addMethod _ ⟨0⟩ "x: y" true = .ok (_, _))
  have h₃ := h₂.addMethod (rfl : Builder.addMethod _ ⟨1⟩ "<: >" false = .ok (_, _))
  exact (h₃.addVar ⟨1⟩ "n" .int).setBody
    (rfl : Builder.setBody _ ⟨1⟩ ⟨none, [⟨0⟩], #[.ret (some ⟨0⟩)]⟩ = .ok _)

theorem accepted_separators : separators.program.Accepted := ⟨_, built_separators, rfl⟩

theorem class?_separators {c : ClassId} (h : separators.program.class? c = some cls) :
    c = ⟨0⟩ ∧ cls.name = "<A>:" ∧ cls.superclass = none ∧ cls.interfaces = [] ∨
      c = ⟨1⟩ ∧ cls.name = "" ∧ cls.superclass = some ⟨0⟩ ∧ cls.interfaces = [] := by
  obtain ⟨_ | _ | i⟩ := c <;> cases h
  · exact .inl ⟨rfl, rfl, rfl, rfl⟩
  · exact .inr ⟨rfl, rfl, rfl, rfl⟩

theorem method?_separators (h : separators.program.method? m = some d) :
    m = ⟨0⟩ ∧ d.cls = ⟨0⟩ ∧ d.subsignature = "<: >" ∨ m = ⟨1⟩ ∧ d.cls = ⟨0⟩ ∧ d.subsignature = "x: y" ∨
      m = ⟨2⟩ ∧ d.cls = ⟨1⟩ ∧ d.subsignature = "<: >" := by
  obtain ⟨_ | _ | _ | i⟩ := m <;> cases h
  · exact .inl ⟨rfl, rfl, rfl⟩
  · exact .inr (.inl ⟨rfl, rfl, rfl⟩)
  · exact .inr (.inr ⟨rfl, rfl, rfl⟩)

theorem body?_separators {b : Body} (h : separators.program.body? m = some b) :
    m = ⟨1⟩ ∧ b = ⟨none, [⟨0⟩], #[.ret (some ⟨0⟩)]⟩ := by
  obtain ⟨_ | _ | _ | i⟩ := m <;> cases h
  exact ⟨rfl, rfl⟩

theorem namesApart_separators : separators.program.NamesApart where
  classes hc hc' hname := by
    rcases class?_separators hc with ⟨rfl, h, -⟩ | ⟨rfl, h, -⟩ <;>
      rcases class?_separators hc' with ⟨rfl, h', -⟩ | ⟨rfl, h', -⟩
    · rfl
    · exact absurd (h.symm.trans (hname.trans h')) (by decide)
    · exact absurd (h.symm.trans (hname.trans h')) (by decide)
    · rfl
  undivided hc := by
    rw [← Text.cut?_eq_none_iff]
    rcases class?_separators hc with ⟨-, h, -⟩ | ⟨-, h, -⟩ <;> rw [h] <;> decide
  methods hm hm' hcls hsub := by
    rcases method?_separators hm with ⟨rfl, hc, hs⟩ | ⟨rfl, hc, hs⟩ | ⟨rfl, hc, hs⟩ <;>
      rcases method?_separators hm' with ⟨rfl, hc', hs'⟩ | ⟨rfl, hc', hs'⟩ | ⟨rfl, hc', hs'⟩ <;>
      first
        | rfl
        | exact absurd (hs.symm.trans (hsub.trans hs')) (by decide)
        | exact absurd (hc.symm.trans (hcls.trans hc')) (by decide)
  trimmed hm := by
    rcases method?_separators hm with ⟨-, -, h⟩ | ⟨-, -, h⟩ | ⟨-, -, h⟩ <;> rw [h] <;>
      exact ⟨by simp [Text.isBlank], by simp [Text.isBlank]⟩

theorem classesInRange_separators : separators.program.ClassesInRange where
  superclass hc hs := by
    rcases class?_separators hc with ⟨-, -, h, -⟩ | ⟨-, -, h, -⟩ <;> cases h.symm.trans hs
    decide
  interface hc hs := by
    rcases class?_separators hc with ⟨-, -, -, h⟩ | ⟨-, -, -, h⟩ <;> rw [h] at hs <;> cases hs
  root h := by cases h
  call h := by
    obtain ⟨b, hb, hs⟩ := Program.stmt?_eq_some_iff.mp h
    obtain ⟨-, rfl⟩ := body?_separators hb
    exact absurd (Array.mem_of_getElem? hs) (by simp)
  allocation h := by
    obtain ⟨b, hb, hs⟩ := Program.stmt?_eq_some_iff.mp h
    obtain ⟨-, rfl⟩ := body?_separators hb
    exact absurd (Array.mem_of_getElem? hs) (by simp)

theorem bindsDeclared_separators : separators.program.BindsDeclared := by
  refine Program.bindsDeclared_of_owns (fun m b v hb hv => ?_) fun m b hb v hv => ?_
  · obtain ⟨-, rfl⟩ := body?_separators hb
    cases hv
  · obtain ⟨rfl, rfl⟩ := body?_separators hb
    rw [List.mem_singleton.mp hv]
    exact ⟨_, rfl, rfl⟩

/-- The first separator of the signature is not the first colon, nor the last separator. -/
theorem signature_selects_entry_separators :
    separators.program.Accepted ∧ separators.program.ClassesInRange ∧
    separators.program.BindsDeclared ∧ separators.program.NamesApart ∧
    separators.program.getSignature ⟨1⟩ = .ok "<<A>:: x: y>" ∧
    separators.program.methodOfSignature? "<<A>:: x: y>" = some ⟨1⟩ ∧
    (CallGraphConfig.mk .pointsTo (some "<<A>:: x: y>")).validate = .ok () ∧
    ∃ r, (run { Config.default with callGraph := ⟨.pointsTo, some "<<A>:: x: y>"⟩ }
      separators.program).result = .ok r ∧ r.calls.entries = [⟨1⟩] := by
  obtain ⟨s, hs, hnames, hselects⟩ := signature_selects_entry (m := ⟨1⟩) accepted_separators
    classesInRange_separators bindsDeclared_separators namesApart_separators rfl rfl (by decide)
  obtain rfl : s = "<<A>:: x: y>" := Except.ok.inj (hs.symm.trans rfl)
  obtain ⟨hvalid, hrun⟩ :=
    hselects { Config.default with callGraph := ⟨.pointsTo, some "<<A>:: x: y>"⟩ } rfl
  exact ⟨accepted_separators, classesInRange_separators, bindsDeclared_separators,
    namesApart_separators, hs, hnames, hvalid, hrun⟩

end Pipeline
end ProgramAnalysis
