import ProgramAnalysis.Proofs.Program.Accepted

/-! What the builder accepts. The checks of `Builder.build` hold exactly of the programs that are
`Checked`: their statements are in order, and so are the flags of their methods and their entry. A
well-formed program also owns its receivers and parameters, which no check looks at. -/
namespace ProgramAnalysis

/-- Places where a body can name a variable. -/
def Body.Mentions (b : Body) (v : VarId) : Prop :=
  b.this = some v ∨ v ∈ b.params ∨ ∃ i s, b.stmt? i = some s ∧ (s.def? = some v ∨ v ∈ s.uses)

namespace Program

variable {p : Program}

/-- What the checks establish. -/
structure Checked (p : Program) : Prop where
  concrete : ∀ {m d b}, p.method? m = some d → d.body = some b → d.isAbstract = false
  static : ∀ {m d b}, p.method? m = some d → d.body = some b → d.isStatic = true → b.this = none
  jumps : ∀ {m b i s t}, p.body? m = some b → b.stmt? i = some s → t ∈ s.jumpTargets → t < b.size
  owned : ∀ {m b i s v}, p.body? m = some b → b.stmt? i = some s →
    s.def? = some v ∨ v ∈ s.uses → p.Owns m v
  entry : ∀ {m}, p.entry = some m → m.index < p.methods.size

/-- Whatever a body mentions is its own. -/
structure WellFormed (p : Program) : Prop extends p.Checked where
  mentioned : ∀ {m b v}, p.body? m = some b → b.Mentions v → p.Owns m v

theorem wellFormed_iff : p.WellFormed ↔ p.Checked ∧ p.OwnsThis ∧ p.OwnsParams := by
  constructor
  · intro h
    refine ⟨h.toChecked, fun m b v hb hv => ?_, fun m b hb v hv => ?_⟩
    · exact h.mentioned hb (.inl hv)
    · exact h.mentioned hb (.inr (.inl hv))
  · intro ⟨h, hthis, hparams⟩
    refine ⟨h, fun hb hv => ?_⟩
    obtain hv | hv | ⟨i, s, hs, hv⟩ := hv
    · exact hthis _ _ _ hb hv
    · exact hparams _ _ hb _ hv
    · exact h.owned hb hs hv

end Program

namespace Builder

variable {b : Builder} {p : Program} {m : MethodId} {body : Body} {d : MethodDecl}

theorem owns_iff {v : VarId} : b.owns m v = true ↔ b.program.Owns m v := by
  simp only [owns, Option.any_eq_true, beq_iff_eq]
  exact Iff.rfl

theorem stmtFault?_eq_none_iff {size i : Nat} {s : Stmt} :
    b.stmtFault? m size i s = none ↔
      (∀ t ∈ s.jumpTargets, t < size) ∧ ∀ v, s.def? = some v ∨ v ∈ s.uses → b.program.Owns m v := by
  have hmentions : ∀ v, v ∈ s.def?.toList ++ s.uses ↔ s.def? = some v ∨ v ∈ s.uses := by
    simp
  unfold stmtFault?
  cases hfind : s.jumpTargets.find? fun t => size ≤ t with
  | some t =>
    refine ⟨nofun, fun ⟨hjumps, _⟩ => ?_⟩
    have hout : size ≤ t := by simpa using List.find?_some hfind
    exact absurd (hjumps t (List.mem_of_find?_eq_some hfind)) (Nat.not_lt.mpr hout)
  | none =>
    have hjumps : ∀ t ∈ s.jumpTargets, t < size := by simpa using List.find?_eq_none.mp hfind
    dsimp only
    rw [Option.map_eq_none_iff, List.find?_eq_none]
    simp only [hmentions, Bool.not_eq_true', Bool.not_eq_false, owns_iff]
    exact ⟨fun hvars => ⟨hjumps, hvars⟩, fun hok => hok.2⟩

theorem bodyFault?_eq_none_iff : b.bodyFault? m d body = none ↔
    d.isAbstract = false ∧ (d.isStatic = true → body.this = none) ∧
      ∀ i s, body.stmt? i = some s → b.stmtFault? m body.size i s = none := by
  unfold bodyFault?
  cases habstract : d.isAbstract <;> cases hstatic : d.isStatic <;> cases hthis : body.this <;>
    simp [Program.mem_indexed]

/-- The checks pass where no method has a fault. -/
theorem checkMethods_ok_iff {ms : List (MethodDecl × Nat)} :
    b.checkMethods ms = .ok () ↔ ∀ d i, (d, i) ∈ ms → b.methodFault? ⟨i⟩ d = none := by
  refine ⟨fun h d i hm => checkMethods_ok h hm, fun h => ?_⟩
  induction ms with
  | nil => rfl
  | cons x rest ih =>
    obtain ⟨d, i⟩ := x
    rw [checkMethods, h d i List.mem_cons_self]
    exact ih fun d' j hm => h d' j (List.mem_cons_of_mem _ hm)

theorem checkEntry_ok_iff :
    b.checkEntry = .ok () ↔ ∀ m, b.program.entry = some m → m.index < b.program.methods.size := by
  change b.checkEntry = .ok () ↔ ∀ m, b.entry = some m → m.index < b.methods.size
  unfold checkEntry
  cases b.entry with
  | none => simp
  | some m => simp

theorem methods_faultless_iff :
    (∀ d i, (d, i) ∈ b.methods.toList.zipIdx → b.methodFault? ⟨i⟩ d = none) ↔
      ∀ m d body, b.program.method? m = some d → d.body = some body →
        b.bodyFault? m d body = none := by
  simp only [List.mem_zipIdx_iff_getElem?, Array.getElem?_toList, methodFault?,
    Option.bind_eq_none_iff]
  exact ⟨fun h m d body hd hbody => h d m.index hd body hbody,
    fun h d i hd body hbody => h ⟨i⟩ d body hd hbody⟩

theorem build_eq_ok_iff : b.build = .ok p ↔
    p = b.program ∧ b.checkMethods b.methods.toList.zipIdx = .ok () ∧ b.checkEntry = .ok () := by
  refine ⟨build_ok, fun ⟨hp, hmethods, hentry⟩ => ?_⟩
  simp only [build, hmethods, hentry, hp]
  rfl

theorem build_ok_iff_checked : b.build = .ok p ↔ p = b.program ∧ p.Checked := by
  rw [build_eq_ok_iff, checkMethods_ok_iff, methods_faultless_iff, checkEntry_ok_iff]
  refine and_congr_right fun hp => ?_
  subst hp
  simp only [bodyFault?_eq_none_iff, stmtFault?_eq_none_iff]
  constructor
  · intro ⟨hbodies, hentry⟩
    have hstmts : ∀ {m body}, b.program.body? m = some body → ∀ i s, body.stmt? i = some s →
        (∀ t ∈ s.jumpTargets, t < body.size) ∧
          ∀ v, s.def? = some v ∨ v ∈ s.uses → b.program.Owns m v := by
      intro m body hb
      obtain ⟨d, hd, hbody⟩ := Program.body?_eq_some_iff.mp hb
      exact (hbodies m d body hd hbody).2.2
    exact ⟨fun hd hbody => (hbodies _ _ _ hd hbody).1,
      fun hd hbody => (hbodies _ _ _ hd hbody).2.1,
      fun hb hs ht => (hstmts hb _ _ hs).1 _ ht, fun hb hs hv => (hstmts hb _ _ hs).2 _ hv,
      fun he => hentry _ he⟩
  · intro h
    refine ⟨fun m d body hd hbody => ⟨h.concrete hd hbody, h.static hd hbody, fun i s hs => ?_⟩,
      fun m he => h.entry he⟩
    have hb : b.program.body? m = some body := Program.body?_eq_some_iff.mpr ⟨d, hd, hbody⟩
    exact ⟨fun t ht => h.jumps hb hs ht, fun v hv => h.owned hb hs hv⟩

/-- The builder accepts the checked programs and no others. Those that own their receivers and
parameters are the well-formed ones. -/
theorem build_accepts_wellFormed :
    (b.build = .ok p ↔ p = b.program ∧ p.Checked) ∧
      (b.build = .ok p → (p.WellFormed ↔ p.OwnsThis ∧ p.OwnsParams)) := by
  refine ⟨build_ok_iff_checked, fun h => ?_⟩
  have hchecked : p.Checked := (build_ok_iff_checked.mp h).2
  rw [Program.wellFormed_iff]
  exact and_iff_right hchecked

/-! ### A foreign receiver and a foreign parameter -/

/-- The receiver of `f` is a variable of `g`, and its parameter is no variable at all. -/
def borrowing : Builder where
  classes := #[⟨"C", none, [], false, false, [("void f(C)", ⟨0⟩), ("void g()", ⟨1⟩)], []⟩]
  fields := #[]
  methods := #[⟨"void f(C)", ⟨0⟩, false, false, some ⟨some ⟨0⟩, [⟨7⟩], #[.ret none]⟩⟩,
    ⟨"void g()", ⟨0⟩, false, false, none⟩]
  vars := #[⟨"x", .cls ⟨0⟩, ⟨1⟩⟩]
  entry := none
  root := none

theorem built_borrowing : borrowing.Built := by
  have hf := (Built.empty.addClass "C" none).addMethod
    (rfl : Builder.addMethod _ ⟨0⟩ "void f(C)" false = .ok (_, _))
  have hg := hf.addMethod (rfl : Builder.addMethod _ ⟨0⟩ "void g()" false = .ok (_, _))
  exact (hg.addVar ⟨1⟩ "x" (.cls ⟨0⟩)).setBody
    (rfl : Builder.setBody _ ⟨0⟩ ⟨some ⟨0⟩, [⟨7⟩], #[.ret none]⟩ = .ok _)

/-- Only the variables of statements are checked. -/
theorem build_accepts_borrowing : borrowing.Built ∧ borrowing.build = .ok borrowing.program ∧
    ¬ borrowing.program.OwnsThis ∧ ¬ borrowing.program.OwnsParams ∧
    ¬ borrowing.program.WellFormed := by
  have hthis : ¬ borrowing.program.OwnsThis := fun h => by
    obtain ⟨d, hd, hm⟩ := h ⟨0⟩ _ ⟨0⟩ rfl rfl
    cases hd
    cases hm
  have hparams : ¬ borrowing.program.OwnsParams := fun h => by
    obtain ⟨d, hd, -⟩ := h ⟨0⟩ _ rfl ⟨7⟩ List.mem_cons_self
    cases hd
  exact ⟨built_borrowing, rfl, hthis, hparams, fun h => hthis (Program.wellFormed_iff.mp h).2.1⟩

end Builder
end ProgramAnalysis
