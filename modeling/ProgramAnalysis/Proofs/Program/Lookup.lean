import ProgramAnalysis.Program.Hierarchy
import ProgramAnalysis.Proofs.Counting
import ProgramAnalysis.Proofs.Program.Accepted

/-! Method lookup: what it finds is a method of the program, as it looks at it. In an accepted program
whose superclasses are in range it does not fail, and it finds the first method on the chain of
superclasses that it accepts, also where the chain is a cycle. -/
namespace ProgramAnalysis.Program

variable {p : Program}

def SuperclassesInRange (p : Program) : Prop :=
  ∀ decl ∈ p.classes, ∀ c ∈ decl.superclass, p.HasClass c

instance (p : Program) : Decidable p.SuperclassesInRange :=
  inferInstanceAs (Decidable (∀ decl ∈ p.classes, ∀ c ∈ decl.superclass, p.HasClass c))

theorem ClassesInRange.superclasses (hr : p.ClassesInRange) : p.SuperclassesInRange := by
  intro decl hdecl c hc
  obtain ⟨i, hi, rfl⟩ := Array.mem_iff_getElem.mp hdecl
  exact hr.superclass (Array.getElem?_eq_getElem hi : p.class? ⟨i⟩ = _) hc

theorem getClass_eq {c : ClassId} (h : p.HasClass c) :
    ∃ d, p.class? c = some d ∧ p.getClass c = .ok d := by
  have hlt : c.index < p.classes.size := h
  refine ⟨p.classes[c.index], Array.getElem?_eq_getElem h, ?_⟩
  simp only [getClass, class?, Array.getElem?_eq_getElem h]
  rfl

theorem getMethod_eq {m : MethodId} (h : m.index < p.methods.size) :
    ∃ d, p.method? m = some d ∧ p.getMethod m = .ok d := by
  refine ⟨p.methods[m.index], Array.getElem?_eq_getElem h, ?_⟩
  simp only [getMethod, method?, Array.getElem?_eq_getElem h]
  rfl

theorem Accepted.getSignature_ok (hp : p.Accepted) {m : MethodId}
    (h : m.index < p.methods.size) : ∃ signature, p.getSignature m = .ok signature := by
  obtain ⟨b, hb, hbuild⟩ := hp
  obtain ⟨rfl, _, _⟩ := Builder.build_ok hbuild
  obtain ⟨d, hd, hdecl⟩ := getMethod_eq h
  have hhas : b.program.HasClass d.cls := hb.houses d (Array.mem_of_getElem? hd)
  obtain ⟨c, _, hclass⟩ := getClass_eq hhas
  exact ⟨_, bind_ok_iff.mpr ⟨d, hdecl, bind_ok_iff.mpr ⟨c, hclass, rfl⟩⟩⟩

theorem lookupFrom_lt {s : String} {accept : MethodDecl → Bool} {m : MethodId} {fuel : Nat} :
    ∀ {c? : Option ClassId} {seen : List ClassId},
      p.lookupFrom s accept fuel c? seen = .ok (some m) → m.index < p.methods.size := by
  induction fuel with
  | zero => exact fun h => nomatch h
  | succ fuel ih =>
    intro c? seen h
    cases c? with
    | none => cases h
    | some c =>
      rw [lookupFrom] at h
      split at h
      · cases h
      · obtain ⟨d, _, h⟩ := bind_ok_iff.mp h
        split at h
        · exact ih h
        · next k _ =>
          obtain ⟨decl, hdecl, h⟩ := bind_ok_iff.mp h
          split at h
          · cases h
            exact lt_of_getMethod hdecl
          · exact ih h

theorem lookupFrom_ok (hp : p.Accepted) (hr : p.SuperclassesInRange) (s : String)
    (accept : MethodDecl → Bool) : ∀ (fuel : Nat) (c? : Option ClassId) (seen : List ClassId),
      (∀ c, c? = some c → p.HasClass c) →
      ∃ r, p.lookupFrom s accept fuel c? seen = .ok r ∧ ∀ m, r = some m → m.index < p.methods.size
  | 0, _, _, _ => ⟨none, rfl, by simp⟩
  | _ + 1, none, _, _ => ⟨none, rfl, by simp⟩
  | fuel + 1, some c, seen, hc => by
    rw [lookupFrom]
    by_cases hseen : c ∈ seen
    · rw [if_pos hseen]
      exact ⟨none, rfl, by simp⟩
    · obtain ⟨d, hd, hget⟩ := getClass_eq (hc c rfl)
      have hnext := lookupFrom_ok hp hr s accept fuel d.superclass (c :: seen)
        fun _ hs => hr d (Array.mem_of_getElem? hd) _ hs
      rw [if_neg hseen, hget]
      simp only [bind, Except.bind]
      cases hm : d.declared? s with
      | none => exact hnext
      | some m =>
        have hlt := hp.declared_lt hd hm
        obtain ⟨decl, _, hdecl⟩ := getMethod_eq hlt
        simp only [hdecl]
        split
        · exact ⟨some m, rfl, by simpa using hlt⟩
        · exact hnext

theorem dispatch_ok (hp : p.Accepted) (hr : p.ClassesInRange) {c : ClassId} (hc : p.HasClass c)
    (s : String) : ∃ r, p.dispatch c s = .ok r ∧ ∀ m, r = some m → m.index < p.methods.size :=
  lookupFrom_ok hp hr.superclasses s _ _ _ _ (by simpa using hc)

theorem resolve_ok (hp : p.Accepted) (hr : p.ClassesInRange) {c : ClassId} (hc : p.HasClass c)
    (s : String) : ∃ r, p.resolve c s = .ok r ∧ ∀ m, r = some m → m.index < p.methods.size :=
  lookupFrom_ok hp hr.superclasses s _ _ _ _ (by simpa using hc)

/-! ### What is found -/

/-- The class declares the method with the subsignature, and it is accepted. -/
def Declares (p : Program) (s : String) (accept : MethodDecl → Bool) (d : ClassDecl)
    (m : MethodId) : Prop :=
  d.declared? s = some m ∧ ∃ decl, p.method? m = some decl ∧ accept decl

/-- The class declares the method, or declares none and inherits it from its superclass. -/
inductive Provides (p : Program) (s : String) (accept : MethodDecl → Bool) :
    ClassId → MethodId → Prop
  | declared {c d m} : p.class? c = some d → p.Declares s accept d m → Provides p s accept c m
  | inherited {c d c' m} : p.class? c = some d → (∀ k, ¬ p.Declares s accept d k) →
      d.superclass = some c' → Provides p s accept c' m → Provides p s accept c m

section Provides

variable {s : String} {accept : MethodDecl → Bool} {c : ClassId} {d : ClassDecl} {m m' : MethodId}

theorem Declares.unique (h : p.Declares s accept d m) (h' : p.Declares s accept d m') : m = m' :=
  Option.some.inj (h.1.symm.trans h'.1)

theorem Provides.unique (h : p.Provides s accept c m) (h' : p.Provides s accept c m') :
    m = m' := by
  induction h with
  | declared hc hd =>
    cases h' with
    | declared hc' hd' =>
      cases hc.symm.trans hc'
      exact hd.unique hd'
    | inherited hc' hnone =>
      cases hc.symm.trans hc'
      exact absurd hd (hnone _)
  | inherited hc hnone hs _ ih =>
    cases h' with
    | declared hc' hd' =>
      cases hc.symm.trans hc'
      exact absurd hd' (hnone _)
    | inherited hc' _ hs' h' =>
      cases hc.symm.trans hc'
      cases hs.symm.trans hs'
      exact ih h'

/-- One round of the lookup: the class of an accepted declaration ends it, any other is passed. -/
theorem lookupFrom_round {fuel : Nat} {seen : List ClassId} {r : Option MethodId} (hc : c ∉ seen)
    (h : p.lookupFrom s accept (fuel + 1) (some c) seen = .ok r) : ∃ d, p.class? c = some d ∧
      ((∃ m, r = some m ∧ p.Declares s accept d m) ∨
        (∀ k, ¬ p.Declares s accept d k) ∧
          p.lookupFrom s accept fuel d.superclass (c :: seen) = .ok r) := by
  rw [lookupFrom, if_neg hc] at h
  obtain ⟨d, hd, h⟩ := bind_ok_iff.mp h
  refine ⟨d, orDangling_eq_ok_iff.mp hd, ?_⟩
  split at h
  · next hnone =>
    refine .inr ⟨fun k hk => ?_, h⟩
    cases hnone.symm.trans hk.1
  · next m hm =>
    obtain ⟨decl, hdecl, h⟩ := bind_ok_iff.mp h
    have hdecl := orDangling_eq_ok_iff.mp hdecl
    split at h
    · next haccept =>
      cases h
      exact .inl ⟨m, rfl, hm, decl, hdecl, haccept⟩
    · next haccept =>
      refine .inr ⟨fun k ⟨hk, decl', hdecl', hk'⟩ => ?_, h⟩
      cases hm.symm.trans hk
      cases hdecl.symm.trans hdecl'
      exact haccept hk'

theorem provides_of_lookupFrom {fuel : Nat} {seen : List ClassId}
    (h : p.lookupFrom s accept fuel (some c) seen = .ok (some m)) : p.Provides s accept c m := by
  induction fuel generalizing c seen with
  | zero => cases h
  | succ fuel ih =>
    by_cases hc : c ∈ seen
    · rw [lookupFrom, if_pos hc] at h
      cases h
    · obtain ⟨d, hd, ⟨k, hk, hdeclares⟩ | ⟨hnone, h⟩⟩ := lookupFrom_round hc h
      · cases hk
        exact .declared hd hdeclares
      · cases hs : d.superclass with
        | none =>
          rw [hs] at h
          cases fuel <;> cases h
        | some c' =>
          rw [hs] at h
          exact .inherited hd hnone hs (ih h)

/-- The class has been passed: it declares nothing, and its superclass comes next or was passed. -/
def Passed (p : Program) (s : String) (accept : MethodDecl → Bool) (next : Option ClassId)
    (seen : List ClassId) (c : ClassId) : Prop :=
  ∃ d, p.class? c = some d ∧ (∀ k, ¬ p.Declares s accept d k) ∧
    ∀ c', d.superclass = some c' → c' ∈ seen ∨ next = some c'

theorem Passed.closed {next : Option ClassId} {seen : List ClassId} (h : p.Passed s accept next seen c)
    (hnext : ∀ e, next = some e → e ∈ seen) : p.Passed s accept none seen c := by
  obtain ⟨d, hd, hnone, hsuper⟩ := h
  exact ⟨d, hd, hnone, fun c' hs => .inl ((hsuper c' hs).elim id (hnext c'))⟩

/-- Passed classes whose superclasses were all passed, as when a cycle closes, provide nothing. -/
theorem not_provides_of_passed {seen : List ClassId}
    (hpassed : ∀ c ∈ seen, p.Passed s accept none seen c) (hc : c ∈ seen) :
    ¬ p.Provides s accept c m := by
  intro h
  induction h with
  | declared hd hdeclares =>
    obtain ⟨d, hd', hnone, _⟩ := hpassed _ hc
    cases hd.symm.trans hd'
    exact hnone _ hdeclares
  | inherited hd _ hs _ ih =>
    obtain ⟨d, hd', _, hnext⟩ := hpassed _ hc
    cases hd.symm.trans hd'
    exact ih ((hnext _ hs).resolve_right nofun)

/-- A lookup that finds nothing has passed everything up the chain. It passes each class once, so that
the fuel lasts. -/
theorem not_provides_of_lookupFrom {fuel : Nat} {next : Option ClassId} {seen : List ClassId}
    (hpassed : ∀ c ∈ seen, p.Passed s accept next seen c) (hnodup : seen.Nodup)
    (hfuel : p.classes.size < fuel + seen.length)
    (h : p.lookupFrom s accept fuel next seen = .ok none) (hc : c ∈ seen ∨ next = some c) :
    ¬ p.Provides s accept c m := by
  induction fuel generalizing next seen with
  | zero =>
    have hlt : ∀ e ∈ seen, Handle.index e < p.classes.size := fun e he => by
      obtain ⟨d, hd, _⟩ := hpassed e he
      exact (Array.getElem?_eq_some_iff.mp hd).1
    have hlength := length_le_of_index_lt hnodup hlt
    omega
  | succ fuel ih =>
    cases next with
    | none => exact not_provides_of_passed hpassed (hc.resolve_right nofun)
    | some e =>
      by_cases he : e ∈ seen
      · have hnext : ∀ e', some e = some e' → e' ∈ seen := fun e' heq => Option.some.inj heq ▸ he
        exact not_provides_of_passed (fun c hc => (hpassed c hc).closed hnext) (hc.elim id (hnext c))
      · obtain ⟨d, hd, ⟨k, hk, _⟩ | ⟨hnone, h⟩⟩ := lookupFrom_round he h
        · cases hk
        · refine ih (fun c (hc : c ∈ e :: seen) => ?_) (hnodup.cons he)
            (by rw [List.length_cons]; omega) h (.inl ?_)
          · rcases List.mem_cons.mp hc with rfl | hc
            · exact ⟨d, hd, hnone, fun c' hs => .inr hs⟩
            · obtain ⟨d', hd', hnone', hsuper⟩ := hpassed c hc
              refine ⟨d', hd', hnone', fun c' hs => .inl ?_⟩
              rcases hsuper c' hs with hseen | heq
              · exact List.mem_cons_of_mem e hseen
              · exact Option.some.inj heq ▸ List.mem_cons_self
          · rcases hc with hc | hc
            · exact List.mem_cons_of_mem e hc
            · exact Option.some.inj hc ▸ List.mem_cons_self

theorem lookupFrom_eq_some_iff (hp : p.Accepted) (hr : p.SuperclassesInRange)
    (hc : p.HasClass c) :
    p.lookupFrom s accept (p.classes.size + 2) (some c) [] = .ok (some m) ↔
      p.Provides s accept c m := by
  refine ⟨provides_of_lookupFrom, fun hm => ?_⟩
  obtain ⟨r, h, _⟩ := lookupFrom_ok hp hr s accept (p.classes.size + 2) (some c) []
    (by simpa using hc)
  cases r with
  | none =>
    have hpassed : ∀ e ∈ [], p.Passed s accept (some c) [] e := fun e he => absurd he List.not_mem_nil
    refine absurd hm (not_provides_of_lookupFrom hpassed List.nodup_nil ?_ h (.inr rfl))
    rw [List.length_nil]
    omega
  | some k => rw [h, (provides_of_lookupFrom h).unique hm]

/-- Dispatch finds the first method up the chain of superclasses that is not abstract. -/
theorem dispatch_eq_some_iff (hp : p.Accepted) (hr : p.ClassesInRange) (hc : p.HasClass c) :
    p.dispatch c s = .ok (some m) ↔ p.Provides s (fun decl => !decl.isAbstract) c m :=
  lookupFrom_eq_some_iff hp hr.superclasses hc

/-- Resolution finds the first method up the chain of superclasses. -/
theorem resolve_eq_some_iff (hp : p.Accepted) (hr : p.ClassesInRange) (hc : p.HasClass c) :
    p.resolve c s = .ok (some m) ↔ p.Provides s (fun _ => true) c m :=
  lookupFrom_eq_some_iff hp hr.superclasses hc

end Provides

end ProgramAnalysis.Program
