import MarkupPath.Markup.Event.Read

/-!
# Names of the attributes of a tag

The attributes that a tag lists have pairwise different names. `Attribute.readAll` refuses a name
that it has met before, so the names met so far stay different from each other
(`Attribute.nodup_of_readAll`); every event of a text inherits that (`nodup_of_mem_transcript`).
-/

set_option autoImplicit false

namespace MarkupPath.Markup

open MarkupPath.Text

/-- Reading on behind attributes with different names gives attributes with different names. -/
theorem Attribute.nodup_of_readAll {known attributes : List Attribute} {p : Place}
    (hknown : (known.map (·.name)).Nodup) (h : readAll known p = .ok attributes) :
    (attributes.map (·.name)).Nodup := by
  fun_induction readAll known p with
  | case1 known p q hend =>
    cases h
    exact hknown
  | case2 known p q hrest e hread => cases h
  | case3 known p q hrest name value r hread name' hmet => cases h
  | case4 known p q hrest name value r hread name' hnew ih =>
    -- the check before has found the name new among those met so far
    refine ih ?_ h
    rw [List.map_append, List.nodup_append]
    refine ⟨hknown, by simp, ?_⟩
    intro first hfirst second hsecond heq
    obtain ⟨a, ha, rfl⟩ := List.mem_map.1 hfirst
    have hname : a.name = name' := heq.trans (List.mem_singleton.1 hsecond)
    exact hnew (List.any_eq_true.2 ⟨a, ha, beq_iff_eq.2 hname⟩)

theorem Attribute.nodup_of_list {text : List Char} {attributes : List Attribute}
    (h : list text = .ok attributes) : (attributes.map (·.name)).Nodup :=
  nodup_of_readAll (by simp) h

namespace Event

/-- The attributes of a tag were checked for repeated names as they were read. -/
theorem nodup_of_ofTag {name content : List Char} {offset : Nat} {e : Event}
    (h : ofTag name content offset = .ok e) : (e.attributes.map (·.name)).Nodup := by
  unfold ofTag at h
  extract_lets empty listed at h
  split at h
  · cases h
  · split at h
    · cases h
    · next attributes hlist =>
      cases h
      split <;> exact Attribute.nodup_of_list hlist

theorem nodup_of_readStartTag {start : Nat} {inside q : Place} {e : Event}
    (h : readStartTag start inside = .ok (e, q)) : (e.attributes.map (·.name)).Nodup := by
  rw [readStartTag] at h
  split at h
  · cases h
  · split at h
    · cases h
    · split at h
      · cases h
      · next htag =>
        cases h
        exact nodup_of_ofTag htag

theorem attributes_of_readDelimited {start : Nat} {inside q : Place} {close : String}
    {fault : ReadFault} {event : String → Event} {e : Event}
    (hevent : ∀ content, (event content).attributes = [])
    (h : readDelimited start inside close fault event = .ok (e, q)) : e.attributes = [] := by
  rw [readDelimited] at h
  split at h
  · cases h
    exact hevent _
  · cases h

theorem attributes_of_readDoctype {start : Nat} {inside q : Place} {e : Event}
    (h : readDoctype start inside = .ok (e, q)) : e.attributes = [] := by
  rw [readDoctype] at h
  split at h <;> cases h
  rfl

theorem attributes_of_readInstruction {start : Nat} {inside q : Place} {e : Event}
    (h : readInstruction start inside = .ok (e, q)) : e.attributes = [] := by
  rw [readInstruction] at h
  split at h
  · cases h
  · split at h
    · cases h
    · split at h <;> cases h <;> rfl

theorem attributes_of_readEndTag {inside q : Place} {e : Event}
    (h : readEndTag inside = .ok (e, q)) : e.attributes = [] := by
  rw [readEndTag] at h
  split at h
  · cases h
  · simp only at h
    split at h <;> cases h
    rfl

/-- An event lists attributes with different names. -/
theorem nodup_of_read {p q : Place} {e : Event} (h : read p = .ok (e, q)) :
    (e.attributes.map (·.name)).Nodup := by
  -- only tags that open an element list attributes
  have hnone : e.attributes = [] → (e.attributes.map (·.name)).Nodup := by
    intro he
    rw [he]
    exact List.nodup_nil
  rw [read] at h
  split at h
  · cases h
    exact List.nodup_nil
  · exact hnone (attributes_of_readDelimited (fun _ => rfl) h)
  · exact hnone (attributes_of_readDelimited (fun _ => rfl) h)
  · exact hnone (attributes_of_readDoctype h)
  · exact hnone (attributes_of_readInstruction h)
  · exact hnone (attributes_of_readEndTag h)
  · exact nodup_of_readStartTag h

end Event

theorem nodup_of_mem_transcriptFrom {p : Place} {e : Located}
    (h : e ∈ (transcriptFrom p).events) : (e.event.attributes.map (·.name)).Nodup := by
  fun_induction transcriptFrom p with
  | case1 p hend => cases h
  | case2 p hrest e' hread => cases h
  | case3 p hrest event q hread later ih =>
    rcases List.mem_cons.1 h with rfl | hlater
    · exact Event.nodup_of_read hread
    · exact ih hlater

/-- Every event of a text lists attributes with different names. -/
theorem nodup_of_mem_transcript {text : List Char} {e : Located}
    (h : e ∈ (transcript text).events) : (e.event.attributes.map (·.name)).Nodup :=
  nodup_of_mem_transcriptFrom h

end MarkupPath.Markup
