import ProgramAnalysis.Config.Basic
import ProgramAnalysis.Proofs.Program.Lookup
import ProgramAnalysis.Proofs.Text.Split

/-! Signatures name methods. A class keeps its methods under their subsignatures, so that a lookup by
class and subsignature comes back to the method if there is no other of that subsignature. A signature
is cut at its first separator, which is the one between the two names if the class name has none. -/
namespace ProgramAnalysis

/-- Of entries under other keys none is dropped, and those under the key all are. -/
theorem lookup_filter_ne (entries : List (String × MethodId)) (s t : String) :
    (entries.filter fun e => e.1 != s).lookup t = if s = t then none else entries.lookup t := by
  induction entries with
  | nil => simp
  | cons e entries ih =>
    obtain ⟨u, k⟩ := e
    rw [List.filter_cons]
    by_cases hu : u = s
    · subst hu
      by_cases ht : u = t
      · simpa [ht] using ih
      · have htu : (t == u) = false := by simpa using Ne.symm ht
        simpa [ht, List.lookup_cons, htu] using ih
    · by_cases ht : s = t
      · subst ht
        have hsu : (s == u) = false := by simpa using Ne.symm hu
        simpa [hu, List.lookup_cons, hsu] using ih
      · simp only [ht, if_false] at ih
        simp [hu, ht, List.lookup_cons, ih]

theorem ClassDecl.declared?_declare (d : ClassDecl) (s t : String) (m : MethodId) :
    (d.declare s m).declared? t = if s = t then some m else d.declared? t := by
  unfold declare declared?
  dsimp only
  rw [List.lookup_append, lookup_filter_ne]
  by_cases hst : s = t
  · simp [hst]
  · have hts : (t == s) = false := by simpa using Ne.symm hst
    simp [hst, List.lookup_cons, hts]

/-! ### The method tables of classes -/

namespace Program

variable {p p' : Program} {m m' : MethodId} {c : ClassId} {s : String}

/-- What a class declares under a subsignature. -/
def declaredIn? (p : Program) (c : ClassId) (s : String) : Option MethodId :=
  (p.class? c).bind (·.declared? s)

/-- The class that a method is declared in, and its subsignature. -/
def heading? (p : Program) (m : MethodId) : Option (ClassId × String) :=
  (p.method? m).map fun d => (d.cls, d.subsignature)

/-- Classes declare their own methods, and all subsignatures that these have. -/
structure Tabled (p : Program) : Prop where
  own : ∀ {c s m}, p.declaredIn? c s = some m → p.heading? m = some (c, s)
  listed : ∀ {c s m}, p.heading? m = some (c, s) → ∃ m', p.declaredIn? c s = some m'

theorem Tabled.of_eq (h : p.Tabled) (hdeclared : ∀ c s, p'.declaredIn? c s = p.declaredIn? c s)
    (hheading : ∀ m, p'.heading? m = p.heading? m) : p'.Tabled where
  own hm := (hheading _).trans (h.own (hdeclared _ _ ▸ hm))
  listed hm := by
    obtain ⟨m', hm'⟩ := h.listed (hheading _ ▸ hm)
    exact ⟨m', (hdeclared _ _).trans hm'⟩

theorem lt_of_heading? {e : ClassId × String} (h : p.heading? m = some e) :
    m.index < p.methods.size := by
  obtain ⟨d, hd, _⟩ := Option.map_eq_some_iff.mp h
  exact (Array.getElem?_eq_some_iff.mp hd).1

end Program

namespace Builder

variable {b b' : Builder} {c : ClassId}

theorem tabled_pushClass {decl : ClassDecl} (h : b.program.Tabled) (hdecl : decl.methods = []) :
    (b.pushClass decl).2.program.Tabled := by
  refine h.of_eq (fun c s => ?_) fun m => rfl
  simp only [Program.declaredIn?, Program.class?, program, pushClass, Array.getElem?_push]
  split
  · next hc => simp [hc, ClassDecl.declared?, hdecl]
  · rfl

theorem tabled_modifyClass {f : ClassDecl → ClassDecl} (h : b.program.Tabled)
    (hb : b.modifyClass c f = .ok b') (hf : ∀ d, (f d).methods = d.methods) :
    b'.program.Tabled := by
  rw [modifyClass_ok hb]
  refine h.of_eq (fun k s => ?_) fun m => rfl
  simp only [Program.declaredIn?, Program.class?, program, Array.getElem?_modify]
  split
  · simp [ClassDecl.declared?, hf, Option.bind_map]
  · rfl

theorem tabled_setBody {m : MethodId} {body : Body} (h : b.program.Tabled)
    (hb : b.setBody m body = .ok b') : b'.program.Tabled := by
  unfold setBody at hb
  split at hb
  · cases hb
    refine h.of_eq (fun c s => rfl) fun k => ?_
    simp only [Program.heading?, Program.method?, program, Array.getElem?_modify]
    split
    · simp [Function.comp_def]
    · rfl
  · cases hb

theorem pushMethod_ok {decl : MethodDecl} {m : MethodId} (hb : b.pushMethod decl = .ok (m, b')) :
    b.program.HasClass decl.cls ∧ b' = { b with
      classes := b.classes.modify decl.cls.index fun d =>
        d.declare decl.subsignature ⟨b.methods.size⟩
      methods := b.methods.push decl } := by
  obtain ⟨b₁, hc, hb⟩ := bind_ok_iff.mp hb
  cases hb
  refine ⟨?_, by rw [modifyClass_ok hc]⟩
  unfold modifyClass at hc
  split at hc
  · assumption
  · cases hc

/-- A new method takes the place of another of its class and subsignature. -/
theorem tabled_pushMethod {decl : MethodDecl} {m : MethodId} (h : b.program.Tabled)
    (hb : b.pushMethod decl = .ok (m, b')) : b'.program.Tabled := by
  obtain ⟨hclass, rfl⟩ := pushMethod_ok hb
  generalize hp : program _ = p'
  have hheading : ∀ k, p'.heading? k = if k = ⟨b.methods.size⟩ then
      some (decl.cls, decl.subsignature) else b.program.heading? k := by
    rintro ⟨k⟩
    subst hp
    by_cases hk : k = b.methods.size
    · simp [Program.heading?, Program.method?, program, hk]
    · simp [Program.heading?, Program.method?, program, Array.getElem?_push, hk]
  have hdeclared : ∀ c s, p'.declaredIn? c s = if c = decl.cls ∧ s = decl.subsignature then
      some ⟨b.methods.size⟩ else b.program.declaredIn? c s := by
    intro c s
    subst hp
    simp only [Program.declaredIn?, Program.class?, program, Array.getElem?_modify]
    by_cases hc : c = decl.cls
    · subst hc
      obtain ⟨d, hd⟩ : ∃ d, b.classes[decl.cls.index]? = some d :=
        ⟨_, Array.getElem?_eq_getElem hclass⟩
      simp [hd, ClassDecl.declared?_declare, eq_comm]
    · have hindex : ¬ decl.cls.index = c.index := fun e => hc (Handle.index_injective e).symm
      simp [hc, hindex]
  constructor
  · intro c s k hk
    rw [hdeclared] at hk
    rw [hheading]
    split at hk
    · next hcs =>
      cases hk
      simp [hcs]
    · have hold := h.own hk
      have hlt := Program.lt_of_heading? hold
      rw [if_neg fun e => absurd (e ▸ hlt) (Nat.lt_irrefl _)]
      exact hold
  · intro c s k hk
    rw [hheading] at hk
    rw [hdeclared]
    split at hk
    · cases hk
      exact ⟨_, if_pos ⟨rfl, rfl⟩⟩
    · split
      · exact ⟨_, rfl⟩
      · exact h.listed hk

theorem Built.tabled (h : b.Built) : b.program.Tabled := by
  induction h with
  | empty =>
    constructor
    · intro c s m hm
      simp [Program.declaredIn?, Program.class?, program, Builder.empty] at hm
    · intro c s m hm
      simp [Program.heading?, Program.method?, program, Builder.empty] at hm
  | addClass _ _ _ ih | addInterface _ _ _ ih => exact tabled_pushClass ih rfl
  | implement _ hb ih =>
    unfold Builder.implement at hb
    exact tabled_modifyClass ih hb fun d => by split <;> rfl
  | setAbstract _ hb ih => exact tabled_modifyClass ih hb fun _ => rfl
  | addField _ hb ih =>
    obtain ⟨b₁, hc, hb⟩ := bind_ok_iff.mp hb
    cases hb
    have h₁ : b₁.program.Tabled := tabled_modifyClass ih hc fun _ => rfl
    exact h₁.of_eq (fun _ _ => rfl) fun _ => rfl
  | addMethod _ hb ih | addAbstractMethod _ hb ih => exact tabled_pushMethod ih hb
  | setBody _ hb ih => exact tabled_setBody ih hb
  | setRoot _ _ ih | addVar _ _ _ _ ih | setEntry _ _ ih =>
    exact ih.of_eq (fun _ _ => rfl) fun _ => rfl

end Builder

namespace Program

variable {p : Program} {m : MethodId} {d : MethodDecl} {cls : ClassDecl}

theorem Accepted.tabled (h : p.Accepted) : p.Tabled := by
  obtain ⟨b, hb, hbuild⟩ := h
  obtain ⟨rfl, _, _⟩ := Builder.build_ok hbuild
  exact hb.tabled

/-- No two classes have one name, no two methods of a class one subsignature; class names are without
the separator of a signature, and subsignatures without blanks at their ends. -/
structure NamesApart (p : Program) : Prop where
  classes : ∀ {c c' cls cls'}, p.class? c = some cls → p.class? c' = some cls' →
    cls.name = cls'.name → c = c'
  undivided : ∀ {c cls}, p.class? c = some cls → ¬ ": ".toList <:+: cls.name.toList
  methods : ∀ {m m' d d'}, p.method? m = some d → p.method? m' = some d' → d.cls = d'.cls →
    d.subsignature = d'.subsignature → m = m'
  trimmed : ∀ {m d}, p.method? m = some d → Text.Trimmed d.subsignature.toList

theorem declared?_subsignature (hp : p.Accepted) (hn : p.NamesApart) (hm : p.method? m = some d)
    (hc : p.class? d.cls = some cls) : cls.declared? d.subsignature = some m := by
  obtain ⟨k, hk⟩ := hp.tabled.listed (m := m) (c := d.cls) (s := d.subsignature) (by simp [heading?, hm])
  obtain ⟨d', hd', heq⟩ := Option.map_eq_some_iff.mp (hp.tabled.own hk)
  obtain ⟨hcls, hsub⟩ := Prod.mk.inj heq
  rw [hn.methods hd' hm hcls hsub] at hk
  simpa [declaredIn?, hc] using hk

theorem classNamed?_name (hn : p.NamesApart) {c : ClassId} (hc : p.class? c = some cls) :
    p.classNamed? cls.name = some c := by
  obtain ⟨hlt, hget⟩ := Array.getElem?_eq_some_iff.mp hc
  have hfirst : p.classes.findIdx? (fun k => k.name == cls.name) = some c.index := by
    refine Array.findIdx?_eq_some_iff_getElem.mpr ⟨hlt, by simp [hget], fun j hj heq => ?_⟩
    have hcj : p.class? ⟨j⟩ = some p.classes[j] := Array.getElem?_eq_getElem _
    have hsame : (⟨j⟩ : ClassId) = c := hn.classes hcj hc (beq_iff_eq.mp heq)
    rw [← hsame] at hj
    exact Nat.lt_irrefl j hj
  rw [classNamed?, hfirst]
  rfl

/-! ### Signatures -/

/-- `<Class: subsignature>`. -/
def signature (cls : ClassDecl) (d : MethodDecl) : String := s!"<{cls.name}: {d.subsignature}>"

theorem getSignature_eq (hm : p.method? m = some d) (hc : p.class? d.cls = some cls) :
    p.getSignature m = .ok (signature cls d) := by
  have hdecl : p.getMethod m = .ok d := orDangling_eq_ok_iff.mpr hm
  have hclass : p.getClass d.cls = .ok cls := orDangling_eq_ok_iff.mpr hc
  exact bind_ok_iff.mpr ⟨d, hdecl, bind_ok_iff.mpr ⟨cls, hclass, rfl⟩⟩

theorem toList_signature (cls : ClassDecl) (d : MethodDecl) : (signature cls d).toList =
    '<' :: (cls.name.toList ++ ": ".toList ++ d.subsignature.toList) ++ ['>'] := by
  simp [signature, toString]

/-- A class name without the separator has none before its last character either. -/
theorem not_infix_concat_colon {x : List Char} (h : ¬ ": ".toList <:+: x) :
    ¬ ": ".toList <:+: x ++ (": ".toList).dropLast := by
  have hsep : ": ".toList = [':', ' '] := rfl
  rw [hsep] at h ⊢
  rw [List.dropLast_cons_of_ne_nil (by simp), List.dropLast_singleton, List.infix_concat_iff]
  rintro (hend | hx)
  · obtain ⟨u, hu⟩ := hend
    have hlast := congrArg List.getLast? hu
    simp at hlast
  · exact h hx

/-- The method that the signature of a method names is that method. -/
theorem methodOfSignature?_signature (hp : p.Accepted) (hn : p.NamesApart)
    (hm : p.method? m = some d) (hc : p.class? d.cls = some cls) :
    p.methodOfSignature? (signature cls d) = some m := by
  have hcut : Text.cut? [':', ' '] (cls.name.toList ++ [':', ' '] ++ d.subsignature.toList) =
      some (cls.name.toList, d.subsignature.toList) :=
    Text.cut?_of_not_infix (not_infix_concat_colon (hn.undivided hc)) _
  have hlead : Text.dropLead? ['<'] (signature cls d).toList =
      some ((cls.name.toList ++ [':', ' '] ++ d.subsignature.toList) ++ ['>']) :=
    Text.dropLead?_eq_some_iff.mpr (toList_signature cls d)
  have hend : Text.dropLead? ['>']
      ((cls.name.toList ++ [':', ' '] ++ d.subsignature.toList) ++ ['>']).reverse =
        some (cls.name.toList ++ [':', ' '] ++ d.subsignature.toList).reverse :=
    Text.dropLead?_eq_some_iff.mpr List.reverse_concat
  have htrim : String.ofList (Text.trim d.subsignature.toList) = d.subsignature := by
    rw [(hn.trimmed hm).trim_eq, String.ofList_toList]
  unfold methodOfSignature?
  simp only [hlead, hend, hcut, Option.bind_eq_bind, Option.bind_some, Option.map_some,
    List.reverse_reverse, String.ofList_toList, classNamed?_name hn hc, hc, htrim]
  exact declared?_subsignature hp hn hm hc

/-- Signatures have the form that an entry is asked for, but for the one of a method and a class that
both have the empty name. -/
theorem isSignature_signature_iff (cls : ClassDecl) (d : MethodDecl) :
    isSignature (signature cls d) = true ↔ ¬ (cls.name = "" ∧ d.subsignature = "") := by
  have hcontains : Text.contains [':', ' '] (signature cls d).toList = true := by
    rw [Text.contains, Option.isSome_iff_ne_none, Ne, Text.cut?_eq_none_iff, not_not,
      toList_signature]
    exact ⟨'<' :: cls.name.toList, d.subsignature.toList ++ ['>'], by simp⟩
  have hsize : (signature cls d).utf8ByteSize =
      4 + (cls.name.utf8ByteSize + d.subsignature.utf8ByteSize) := by
    have hparts : "<".utf8ByteSize = 1 ∧ ": ".utf8ByteSize = 2 ∧ ">".utf8ByteSize = 1 := by decide
    simp only [signature, toString, String.utf8ByteSize_append, hparts]
    omega
  have hhead : (signature cls d).toList.head? = some '<' := by simp [toList_signature]
  have hlast : (signature cls d).toList.getLast? = some '>' := by
    rw [toList_signature, List.getLast?_concat]
  rw [← String.utf8ByteSize_eq_zero_iff, ← String.utf8ByteSize_eq_zero_iff]
  simp only [isSignature, hhead, hlast, hcontains, hsize, beq_self_eq_true, Bool.true_and,
    decide_eq_true_eq]
  omega

end Program
end ProgramAnalysis
