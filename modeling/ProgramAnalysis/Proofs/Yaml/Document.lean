import ProgramAnalysis.Proofs.Yaml.Lexer

/-! The document that a written outline is read as: one mapping, with the items of the outline. A
field takes two events and a nested mapping comes with the events of its own fields, so that each
lemma here is by induction on the outline, with what follows it left open. -/
namespace ProgramAnalysis.Yaml

variable {f : Outline} {ts : List Token} {es : List Expectation} {hs : List (String × String)}

namespace EventReader

theorem run_of_next {r s : EventReader} {e : Event} (h : r.next = some (e, s)) (n : Nat) :
    run (n + 1) r = e :: run n s := by
  rw [run, h]

theorem next_key (key : String) (ts : List Token) :
    next ⟨.key :: .scalar .plain key :: ts, .blockKey, es, hs⟩ =
      some (.scalar none none .plain key, ⟨ts, .blockValue, es, hs⟩) := rfl

theorem next_scalar (style : Style) (text : String) (ts : List Token) :
    next ⟨.value :: .scalar style text :: ts, .blockValue, es, hs⟩ =
      some (.scalar none none style text, ⟨ts, .blockKey, es, hs⟩) := rfl

theorem next_mapping (ts : List Token) :
    next ⟨.value :: .blockMappingStart :: ts, .blockValue, es, hs⟩ =
      some (.mappingStart none none, ⟨ts, .blockKey, .blockKey :: es, hs⟩) := rfl

theorem next_blockEnd (e : Expectation) (ts : List Token) :
    next ⟨.blockEnd :: ts, .blockKey, e :: es, hs⟩ =
      some (.mappingEnd, ⟨ts, e, es, hs⟩) := rfl

theorem next_document (ts : List Token) :
    (start (.blockMappingStart :: ts)).next = some (.documentStart,
      ⟨.blockMappingStart :: ts, .blockNode, [.documentEnd], defaultHandles⟩) := rfl

theorem next_block (ts : List Token) :
    next ⟨.blockMappingStart :: ts, .blockNode, es, hs⟩ =
      some (.mappingStart none none, ⟨ts, .blockKey, es, hs⟩) := rfl

theorem next_documentEnd :
    next ⟨[.streamEnd], .documentEnd, es, hs⟩ =
      some (.documentEnd, ⟨[.streamEnd], .document, es, hs⟩) := rfl

theorem next_streamEnd :
    next ⟨[.streamEnd], .document, es, hs⟩ = some (.streamEnd, ⟨[], .nothing, es, hs⟩) := rfl

theorem run_nothing (n : Nat) (ts : List Token) : run n ⟨ts, .nothing, es, hs⟩ = [] := by
  cases n <;> rfl

theorem run_tokens (f : Outline) (ts : List Token) (n : Nat) :
    run (f.events.length + n) ⟨f.tokens ++ ts, .blockKey, es, hs⟩ =
      f.events ++ run n ⟨ts, .blockKey, es, hs⟩ := by
  induction f generalizing ts n es with
  | nil => simp [Outline.events, Outline.tokens]
  | scalar key style value rest ih =>
    have hfuel : (Outline.scalar key style value rest).events.length + n =
        rest.events.length + n + 1 + 1 := by
      simp only [Outline.events, List.length_cons]
      omega
    rw [hfuel]
    simp only [Outline.tokens, Outline.events, List.cons_append]
    rw [run_of_next (next_key key _), run_of_next (next_scalar style value _), ih]
  | mapping key inner rest ihi ihr =>
    have hfuel : (Outline.mapping key inner rest).events.length + n =
        inner.events.length + (rest.events.length + n + 1) + 1 + 1 := by
      simp only [Outline.events, List.length_cons, List.length_append]
      omega
    rw [hfuel]
    simp only [Outline.tokens, Outline.events, List.cons_append, List.append_assoc]
    rw [run_of_next (next_key key _), run_of_next (next_mapping _), ihi,
      run_of_next (next_blockEnd _ _), ihr]

end EventReader

theorem length_events_le (f : Outline) : f.events.length ≤ f.tokens.length := by
  induction f with
  | nil => exact Nat.le_refl _
  | scalar key style value rest ih =>
    simp only [Outline.events, Outline.tokens, List.length_cons]
    omega
  | mapping key inner rest ihi ihr =>
    simp only [Outline.events, Outline.tokens, List.length_cons, List.length_append]
    omega

theorem events_tokens (f : Outline) :
    Yaml.events (.blockMappingStart :: f.tokens ++ [.blockEnd, .streamEnd]) =
      .documentStart :: .mappingStart none none ::
        (f.events ++ [.mappingEnd, .documentEnd, .streamEnd]) := by
  have hlength := length_events_le f
  obtain ⟨n, hn⟩ : ∃ n, 4 * (.blockMappingStart :: f.tokens ++
      [Token.blockEnd, .streamEnd]).length + 8 = f.events.length + (n + 1 + 1 + 1) + 1 + 1 := by
    refine ⟨4 * (f.tokens.length + 3) + 3 - f.events.length, ?_⟩
    simp only [List.cons_append, List.length_cons, List.length_append, List.length_nil]
    omega
  rw [Yaml.events, hn, List.cons_append, EventReader.run_of_next (EventReader.next_document _),
    EventReader.run_of_next (EventReader.next_block _), EventReader.run_tokens,
    EventReader.run_of_next (EventReader.next_blockEnd _ _),
    EventReader.run_of_next EventReader.next_documentEnd,
    EventReader.run_of_next EventReader.next_streamEnd, EventReader.run_nothing]

/-! ### Items -/

namespace Document

theorem collect_events (f : Outline) (items : Array Item) (anchors : Anchors) (es : List Event) :
    collect (items, anchors) (f.events ++ es) = collect (items ++ f.items.toArray, anchors) es := by
  induction f generalizing items es with
  | nil => simp [Outline.events, Outline.items]
  | scalar key style value rest ih =>
    simp only [Outline.events, List.cons_append, collect, Anchors.add, ih]
    simp [Outline.items]
  | mapping key inner rest ihi ihr =>
    simp only [Outline.events, List.cons_append, List.append_assoc, collect, Anchors.add, ihi, ihr]
    simp [Outline.items]

/-- Where no item is a reference, nothing is left to be settled. -/
theorem settle_eq {items : List Item} (h : ∀ n, .jump n ∉ items) (anchors : Anchors)
    (sound : Bool) : settle (items.toArray, anchors) sound = ⟨items.toArray, sound⟩ := by
  unfold settle
  simp only [List.map_toArray, Document.mk.injEq, and_true]
  refine congrArg List.toArray
    ((List.map_congr_left (g := id) fun item hitem => ?_).trans (List.map_id items))
  cases item with
  | jump n => exact absurd hitem (h n)
  | _ => rfl

theorem jump_not_mem_items (f : Outline) (n : Nat) : .jump n ∉ f.items := by
  induction f with
  | nil => simp [Outline.items]
  | scalar key style value rest ih => simpa [Outline.items] using ih
  | mapping key inner rest ihi ihr => simp [Outline.items, ihi, ihr]

/-- A written outline is read as one sound document with the items of the outline. -/
theorem ofText_outline (hf : f.Fits) (hne : f ≠ .nil) :
    ofText (String.ofList (f.text 0)) =
      ⟨(.mappingStart none :: (f.items ++ [.mappingEnd])).toArray, true⟩ := by
  rw [ofText, String.toList_ofList, tokens_text hf hne, events_tokens]
  have hjump (n : Nat) : .jump n ∉ Item.mappingStart none :: (f.items ++ [.mappingEnd]) := by
    simp [jump_not_mem_items f n]
  refine .trans ?_ (settle_eq hjump .empty true)
  simp [collect, Anchors.add, collect_events]

end Document

end ProgramAnalysis.Yaml
