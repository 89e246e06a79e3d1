import ProgramAnalysis.Proofs.Loop
import ProgramAnalysis.Proofs.Program.Lookup

/-! Method lookup along the chain of superclasses. The chain of a class goes on for ever where it runs
into a cycle, but the lookup is a loop that ends: it passes a class once, and when it comes back to
one, what lies ahead has been passed. Both lookups find the nearest declaration that they take. -/
namespace ProgramAnalysis.Program

variable {p : Program} {s : String} {accept : MethodDecl → Bool} {c c' k : ClassId} {m : MethodId}

/-! ### The lookup as a loop -/

/-- A lookup under way: the class that is next and those that were passed. -/
structure Climb where
  next : Option ClassId
  seen : List ClassId

def lookupRound (p : Program) (s : String) (accept : MethodDecl → Bool) :
    Climb → Climb ⊕ Except AnalysisError (Option MethodId)
  | ⟨none, _⟩ => .inr (.ok none)
  | ⟨some c, seen⟩ =>
    if c ∈ seen then .inr (.ok none)
    else match p.getClass c with
      | .error e => .inr (.error e)
      | .ok d =>
        match d.declared? s with
        | none => .inl ⟨d.superclass, c :: seen⟩
        | some m =>
          match p.getMethod m with
          | .error e => .inr (.error e)
          | .ok decl =>
            if accept decl then .inr (.ok (some m)) else .inl ⟨d.superclass, c :: seen⟩

/-- A round that is not the last passes a class for the first time. -/
theorem lookupRound_again {t u : Climb} (h : p.lookupRound s accept t = .inl u) :
    ∃ c d, c ∉ t.seen ∧ p.class? c = some d ∧ u = ⟨d.superclass, c :: t.seen⟩ := by
  obtain ⟨_ | c, seen⟩ := t
  · cases h
  · rw [lookupRound] at h
    split at h
    · cases h
    · next hc =>
      split at h
      · cases h
      · next d hd =>
        refine ⟨c, d, hc, orDangling_eq_ok_iff.mp hd, ?_⟩
        split at h
        · exact (Sum.inl.inj h).symm
        · split at h
          · cases h
          · split at h
            · cases h
            · exact (Sum.inl.inj h).symm

theorem lookupFrom_succ (fuel : Nat) (t : Climb) :
    p.lookupFrom s accept (fuel + 1) t.next t.seen =
      (p.lookupRound s accept t).elim (fun u => p.lookupFrom s accept fuel u.next u.seen) id := by
  obtain ⟨_ | c, seen⟩ := t
  · rfl
  · simp only [lookupFrom, lookupRound]
    split
    · rfl
    · cases p.getClass c with
      | error e => rfl
      | ok d =>
        dsimp only [bind, Except.bind]
        cases d.declared? s with
        | none => rfl
        | some m =>
          dsimp only
          cases p.getMethod m with
          | error e => rfl
          | ok decl =>
            dsimp only
            split <;> rfl

/-- A class is passed once at most, and it is one of the program. -/
theorem lookupFrom_ends (p : Program) (s : String) (accept : MethodDecl → Bool) (c : ClassId) :
    Ends (p.lookupRound s accept) ⟨some c, []⟩
      (p.lookupFrom s accept (p.classes.size + 2) (some c) []) := by
  refine Ends.of_fuel (fun fuel (t : Climb) => p.lookupFrom s accept fuel t.next t.seen)
    (fun t => t.seen.Nodup ∧ ∀ e ∈ t.seen, p.HasClass e) (fun t => p.classes.size - t.seen.length)
    lookupFrom_succ (fun ⟨hnodup, hseen⟩ h => ?_)
    ⟨List.nodup_nil, fun e he => absurd he List.not_mem_nil⟩ (by dsimp only; omega)
  obtain ⟨e, d, he, hd, rfl⟩ := lookupRound_again h
  have hnodup' := hnodup.cons he
  have hhas : p.HasClass e := (Array.getElem?_eq_some_iff.mp hd).1
  have hseen' := List.forall_mem_cons.mpr ⟨hhas, hseen⟩
  have hle := length_le_of_index_lt hnodup' hseen'
  refine ⟨⟨hnodup', hseen'⟩, ?_⟩
  simp only [List.length_cons] at hle ⊢
  omega

/-! ### The chain -/

def super? (p : Program) (c : ClassId) : Option ClassId := (p.class? c).bind (·.superclass)

/-- The class `n` steps up from `c`, on a chain that may go round in a cycle. -/
def chain (p : Program) (c : ClassId) : Nat → Option ClassId
  | 0 => some c
  | n + 1 => (p.chain c n).bind p.super?

theorem chain_succ (p : Program) (c : ClassId) (n : Nat) :
    p.chain c (n + 1) = (p.super? c).bind (p.chain · n) := by
  induction n with
  | zero => exact (Option.bind_fun_some _).symm
  | succ n ih =>
    rw [chain, ih, Option.bind_assoc]
    rfl

/-- The class declares the method under the subsignature, and it is accepted. -/
def Offers (p : Program) (s : String) (accept : MethodDecl → Bool) (c : ClassId) (m : MethodId) :
    Prop :=
  ∃ d, p.class? c = some d ∧ p.Declares s accept d m

/-- The first class on the chain of `c` that offers a method offers `m`. -/
def OffersFirst (p : Program) (s : String) (accept : MethodDecl → Bool) (c : ClassId)
    (m : MethodId) : Prop :=
  ∃ n k, p.chain c n = some k ∧ p.Offers s accept k m ∧
    ∀ i < n, ∀ k' m', p.chain c i = some k' → ¬ p.Offers s accept k' m'

theorem OffersFirst.of_provides (h : p.Provides s accept c m) : p.OffersFirst s accept c m := by
  induction h with
  | @declared c d m hd hm => exact ⟨0, c, rfl, ⟨d, hd, hm⟩, fun i hi => absurd hi (Nat.not_lt_zero i)⟩
  | @inherited c d c' m hd hnone hs _ ih =>
    obtain ⟨n, k, hk, hm, hbefore⟩ := ih
    have hstep : ∀ i, p.chain c (i + 1) = p.chain c' i := by
      intro i
      rw [chain_succ, super?, hd, Option.bind_some, hs, Option.bind_some]
    refine ⟨n + 1, k, (hstep n).trans hk, hm, fun i hi k' m' hk' => ?_⟩
    cases i with
    | zero =>
      cases hk'
      rintro ⟨d', hd', hm'⟩
      cases hd.symm.trans hd'
      exact hnone m' hm'
    | succ i => exact hbefore i (Nat.lt_of_succ_lt_succ hi) k' m' ((hstep i).symm.trans hk')

theorem OffersFirst.provides (h : p.OffersFirst s accept c m) : p.Provides s accept c m := by
  obtain ⟨n, k, hk, hm, hbefore⟩ := h
  induction n generalizing c with
  | zero =>
    cases hk
    obtain ⟨d, hd, hm⟩ := hm
    exact .declared hd hm
  | succ n ih =>
    rw [chain_succ] at hk
    obtain ⟨c', hsuper, hk⟩ := Option.bind_eq_some_iff.mp hk
    obtain ⟨d, hd, hs⟩ := Option.bind_eq_some_iff.mp hsuper
    have hnone : ∀ m', ¬ p.Declares s accept d m' := fun m' hm' =>
      hbefore 0 (Nat.succ_pos n) c m' rfl ⟨d, hd, hm'⟩
    refine .inherited hd hnone hs (ih hk fun i hi k' m' hk' => ?_)
    refine hbefore (i + 1) (Nat.succ_lt_succ hi) k' m' ?_
    rw [chain_succ, hsuper, Option.bind_some, hk']

/-- Where some class on the chain offers a method, one is the first to. -/
theorem exists_offersFirst {n : Nat} (hk : p.chain c n = some k) (hm : p.Offers s accept k m) :
    ∃ m', p.OffersFirst s accept c m' := by
  classical
  have hex : ∃ n k m, p.chain c n = some k ∧ p.Offers s accept k m := ⟨n, k, m, hk, hm⟩
  obtain ⟨k', m', hk', hm'⟩ := Nat.find_spec hex
  exact ⟨m', Nat.find hex, k', hk', hm', fun i hi k m hk hm => Nat.find_min hex hi ⟨k, m, hk, hm⟩⟩

/-! ### What the lookups find -/

theorem Offers.mono {accept' : MethodDecl → Bool} (h : p.Offers s accept c m)
    (haccept : ∀ decl, accept decl → accept' decl) : p.Offers s accept' c m := by
  obtain ⟨d, hd, hm, decl, hdecl, h⟩ := h
  exact ⟨d, hd, hm, decl, hdecl, haccept decl h⟩

theorem lookupFrom_eq_none_iff (hp : p.Accepted) (hr : p.SuperclassesInRange)
    (hc : p.HasClass c) :
    p.lookupFrom s accept (p.classes.size + 2) (some c) [] = .ok none ↔
      ∀ n k m, p.chain c n = some k → ¬ p.Offers s accept k m := by
  constructor
  · intro h n k m hk hm
    obtain ⟨m', hfirst⟩ := exists_offersFirst hk hm
    have hsome := (lookupFrom_eq_some_iff hp hr hc).mpr hfirst.provides
    cases h.symm.trans hsome
  · intro hnone
    obtain ⟨r, h, _⟩ := lookupFrom_ok hp hr s accept (p.classes.size + 2) (some c) []
      (by simpa using hc)
    cases r with
    | none => exact h
    | some m =>
      obtain ⟨n, k, hk, hm, _⟩ :=
        OffersFirst.of_provides ((lookupFrom_eq_some_iff hp hr hc).mp h)
      exact absurd hm (hnone n k m hk)

/-- The nearest offer of a lookup is also the nearest of one that takes less, if that takes it. -/
theorem OffersFirst.of_accepted {accept' : MethodDecl → Bool} {decl : MethodDecl}
    (h : p.OffersFirst s accept c m) (haccept : ∀ decl, accept' decl → accept decl)
    (hdecl : p.method? m = some decl) (hm : accept' decl) : p.OffersFirst s accept' c m := by
  obtain ⟨n, k, hk, ⟨d, hd, hdeclared, _⟩, hbefore⟩ := h
  exact ⟨n, k, hk, ⟨d, hd, hdeclared, decl, hdecl, hm⟩, fun i hi k' m' hk' hm' =>
    hbefore i hi k' m' hk' (hm'.mono haccept)⟩

/-- What one lookup of a class gives: it ends with the method that is offered first on the chain, or
with nothing where no class on the chain offers one. -/
structure FindsFirst (p : Program) (s : String) (accept : MethodDecl → Bool) (c : ClassId)
    (result : Except AnalysisError (Option MethodId)) : Prop where
  ends : Ends (p.lookupRound s accept) ⟨some c, []⟩ result
  returns : ∃ r, result = .ok r
  some_iff : ∀ m, result = .ok (some m) ↔ p.OffersFirst s accept c m
  none_iff : result = .ok none ↔ ∀ n k m, p.chain c n = some k → ¬ p.Offers s accept k m

theorem lookupFrom_findsFirst (hp : p.Accepted) (hr : p.SuperclassesInRange) (hc : p.HasClass c) :
    p.FindsFirst s accept c (p.lookupFrom s accept (p.classes.size + 2) (some c) []) where
  ends := p.lookupFrom_ends s accept c
  returns := by
    obtain ⟨r, h, _⟩ := lookupFrom_ok hp hr s accept (p.classes.size + 2) (some c) []
      (by simpa using hc)
    exact ⟨r, h⟩
  some_iff := fun _ => (lookupFrom_eq_some_iff hp hr hc).trans
    ⟨OffersFirst.of_provides, OffersFirst.provides⟩
  none_iff := lookupFrom_eq_none_iff hp hr hc

/-- Resolution finds the first declaration on the chain, dispatch the first that is not abstract. So
dispatch finds nothing abstract, it finds something only where resolution does, and the two find the
same where what resolution finds is not abstract. -/
theorem lookups_find_first (hp : p.Accepted) (hr : p.SuperclassesInRange) (hc : p.HasClass c)
    (s : String) :
    p.FindsFirst s (fun _ => true) c (p.resolve c s) ∧
      p.FindsFirst s (fun decl => !decl.isAbstract) c (p.dispatch c s) ∧
      (∀ m, p.dispatch c s = .ok (some m) →
        (∃ decl, p.method? m = some decl ∧ decl.isAbstract = false) ∧
          ∃ m', p.resolve c s = .ok (some m')) ∧
      ∀ m decl, p.resolve c s = .ok (some m) → p.method? m = some decl →
        decl.isAbstract = false → p.dispatch c s = .ok (some m) := by
  have hresolve : p.FindsFirst s (fun _ => true) c (p.resolve c s) := lookupFrom_findsFirst hp hr hc
  have hdispatch : p.FindsFirst s (fun decl => !decl.isAbstract) c (p.dispatch c s) :=
    lookupFrom_findsFirst hp hr hc
  refine ⟨hresolve, hdispatch, fun m hm => ?_, fun m decl hm hdecl hconcrete => ?_⟩
  · obtain ⟨n, k, hk, hoffers, _⟩ := (hdispatch.some_iff m).mp hm
    have hdeclared : p.Offers s (fun _ => true) k m := hoffers.mono fun _ _ => rfl
    obtain ⟨m', hfirst⟩ := exists_offersFirst hk hdeclared
    obtain ⟨_, _, _, decl, hdecl, hconcrete⟩ := hoffers
    exact ⟨⟨decl, hdecl, by simpa using hconcrete⟩, m', (hresolve.some_iff m').mpr hfirst⟩
  · refine (hdispatch.some_iff m).mpr ?_
    exact ((hresolve.some_iff m).mp hm).of_accepted (fun _ _ => rfl) hdecl (by simp [hconcrete])

/-- Three classes in a cycle: the second declares `run` abstract, the third has a body for it. -/
def ringBuilder : Builder where
  classes := #[⟨"Derived", some ⟨1⟩, [], false, false, [], []⟩,
    ⟨"Base", some ⟨2⟩, [], false, true, [("void run()", ⟨0⟩)], []⟩,
    ⟨"Top", some ⟨0⟩, [], false, false, [("void run()", ⟨1⟩)], []⟩]
  fields := #[]
  methods := #[⟨"void run()", ⟨1⟩, false, true, none⟩, ⟨"void run()", ⟨2⟩, false, false, none⟩]
  vars := #[]
  entry := none
  root := none

theorem accepted_ring : ringBuilder.program.Accepted := by
  have hclasses := ((Builder.Built.empty.addClass "Derived" (some ⟨1⟩)).addClass "Base"
    (some ⟨2⟩)).addClass "Top" (some ⟨0⟩)
  have habstract := hclasses.setAbstract (rfl : Builder.setAbstract _ ⟨1⟩ = .ok _)
  have hbase := habstract.addAbstractMethod
    (rfl : Builder.addAbstractMethod _ ⟨1⟩ "void run()" = .ok (_, _))
  have htop := hbase.addMethod (rfl : Builder.addMethod _ ⟨2⟩ "void run()" false = .ok (_, _))
  exact ⟨ringBuilder, htop, rfl⟩

theorem lookups_find_first_ring :
    ringBuilder.program.Accepted ∧ ringBuilder.program.SuperclassesInRange ∧
      ringBuilder.program.HasClass ⟨0⟩ ∧
      ringBuilder.program.resolve ⟨0⟩ "void run()" = .ok (some ⟨0⟩) ∧
      ringBuilder.program.OffersFirst "void run()" (fun _ => true) ⟨0⟩ ⟨0⟩ ∧
      ringBuilder.program.dispatch ⟨0⟩ "void run()" = .ok (some ⟨1⟩) ∧
      ringBuilder.program.OffersFirst "void run()" (fun decl => !decl.isAbstract) ⟨0⟩ ⟨1⟩ ∧
      ringBuilder.program.dispatch ⟨0⟩ "void stop()" = .ok none := by
  have hr : ringBuilder.program.SuperclassesInRange := by decide
  have hc : ringBuilder.program.HasClass ⟨0⟩ := by decide
  obtain ⟨hresolve, hdispatch, _⟩ := lookups_find_first accepted_ring hr hc "void run()"
  exact ⟨accepted_ring, hr, hc, rfl, (hresolve.some_iff ⟨0⟩).mp rfl, rfl,
    (hdispatch.some_iff ⟨1⟩).mp rfl, rfl⟩

end ProgramAnalysis.Program
