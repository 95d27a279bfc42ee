import ScriptLang.Proofs.Json.Numbers
import ScriptLang.Proofs.Json.Sound
import ScriptLang.Proofs.Json.Strings

/-!
# Documents and their texts

The compact text of a document, read back where a document can stand and as a whole text.

Results:
* `value_write`: a document in a text is read back, and the reader stops where it ends;
* `ofText_render`: the text of a document is read as that document.
-/
namespace ScriptLang.Json

/-- A field whose name comes first is added at the end. -/
theorem set_of_nodup {α : Type} {fields more : List (String × α)} {name : String} {value : α}
    (h : ((fields ++ (name, value) :: more).map (·.1)).Nodup) :
    Entries.set fields name value = fields ++ [(name, value)] := by
  have hhas : Entries.has fields name = false := by
    rw [Entries.has, List.any_eq_false]
    intro field hf heq
    rw [beq_iff_eq] at heq
    rw [List.map_append, List.nodup_append] at h
    exact h.2.2 field.1 (List.mem_map_of_mem hf) name List.mem_cons_self heq
  rw [Entries.set, hhas]
  rfl

/-! ## The start and the length of a text -/

/-- What a document starts with: neither a blank nor the end of a list nor a byte order mark. -/
theorem head_of_value {fuel : Nat} {cs : List Char} {r : Json × List Char}
    (h : value fuel cs = .ok r) :
    ∃ c cs', cs = c :: cs' ∧ isBlank c = false ∧ c ≠ ']' ∧ c ≠ '\uFEFF' := by
  cases fuel with
  | zero => cases h
  | succ fuel =>
    cases cs with
    | nil => cases h
    | cons c cs' =>
      refine ⟨c, cs', rfl, ?_, ?_, ?_⟩
      · by_contra hb
        rw [Bool.not_eq_false, isBlank, Bool.or_eq_true, Bool.or_eq_true, Bool.or_eq_true,
          beq_iff_eq, beq_iff_eq, beq_iff_eq, beq_iff_eq] at hb
        rcases hb with ((rfl | rfl) | rfl) | rfl <;> cases h
      · rintro rfl
        cases h
      · rintro rfl
        cases h

theorem skipBlank_of_value {fuel : Nat} {cs : List Char} {r : Json × List Char}
    (h : value fuel cs = .ok r) : skipBlank cs = cs := by
  obtain ⟨c, cs', rfl, hc, -⟩ := head_of_value h
  rw [skipBlank, List.dropWhile_cons_of_neg]
  rw [hc]
  exact Bool.false_ne_true

theorem digits_ne_nil (n : Int) : IntText.digits n ≠ [] := by
  unfold IntText.digits
  split
  · exact List.cons_ne_nil _ _
  · exact List.ne_nil_of_length_pos Nat.length_toDigits_pos

theorem floatText_ne_nil (x : Float) : floatText x ≠ [] := by
  have hends : Ends [] := by
    rintro c ⟨⟩
  obtain ⟨c, cs, hcs, -⟩ := head_of_value (value_floatText x hends 0)
  rw [List.append_nil] at hcs
  rw [hcs]
  exact List.cons_ne_nil _ _

theorem length_writeString (ascii : Bool) (s : String) (after : List Char) :
    after.length < (writeString ascii s after).length := by
  rw [writeString, List.length_cons, List.length_append, List.length_cons]
  omega

mutual

/-- Every document has a text of one character at least. -/
theorem length_write (l : Layout) (level : Nat) (j : Json) (after : List Char) :
    after.length < (j.write l level after).length := by
  match j with
  | .null =>
    rw [write, List.length_append]
    exact Nat.lt_add_of_pos_left (by decide)
  | .bool b =>
    rw [write, List.length_append]
    exact Nat.lt_add_of_pos_left (by cases b <;> decide)
  | .int n =>
    rw [write, List.length_append]
    exact Nat.lt_add_of_pos_left (List.length_pos_of_ne_nil (digits_ne_nil n))
  | .float x =>
    rw [write, List.length_append]
    exact Nat.lt_add_of_pos_left (List.length_pos_of_ne_nil (floatText_ne_nil x))
  | .str s =>
    rw [write]
    exact length_writeString _ _ _
  | .arr [] =>
    rw [write, List.length_cons, List.length_cons]
    omega
  | .arr (item :: items) =>
    have h₁ := length_write l (level + 1) item
      (writeItems l (level + 1) items (l.newline level ++ ']' :: after))
    have h₂ := length_writeItems l (level + 1) items (l.newline level ++ ']' :: after)
    rw [List.length_append, List.length_cons] at h₂
    rw [write, List.length_cons, List.length_append]
    omega
  | .obj [] =>
    rw [write, List.length_cons, List.length_cons]
    omega
  | .obj ((name, value) :: fields) =>
    have h₁ := length_write l (level + 1) value
      (writeFields l (level + 1) fields (l.newline level ++ '\x7d' :: after))
    have h₂ := length_writeFields l (level + 1) fields (l.newline level ++ '\x7d' :: after)
    have h₃ := length_writeString l.ascii name (l.colon ++ value.write l (level + 1)
      (writeFields l (level + 1) fields (l.newline level ++ '\x7d' :: after)))
    rw [List.length_append, List.length_cons] at h₂
    rw [List.length_append] at h₃
    rw [write, List.length_cons, List.length_append]
    omega

theorem length_writeItems (l : Layout) (level : Nat) (js : List Json) (after : List Char) :
    after.length ≤ (writeItems l level js after).length := by
  match js with
  | [] => exact Nat.le_refl _
  | item :: items =>
    have h₁ := length_write l level item (writeItems l level items after)
    have h₂ := length_writeItems l level items after
    rw [writeItems, List.length_cons, List.length_append]
    omega

theorem length_writeFields (l : Layout) (level : Nat) (fields : List (String × Json))
    (after : List Char) : after.length ≤ (writeFields l level fields after).length := by
  match fields with
  | [] => exact Nat.le_refl _
  | (name, value) :: fields =>
    have h₁ := length_write l level value (writeFields l level fields after)
    have h₂ := length_writeFields l level fields after
    have h₃ := length_writeString l.ascii name
      (l.colon ++ value.write l level (writeFields l level fields after))
    rw [List.length_append] at h₃
    rw [writeFields, List.length_cons, List.length_append]
    omega

end

/-! ## Reading what was written -/

theorem Ends.bracket (after : List Char) : Ends (']' :: after) := by
  rintro c ⟨⟩
  exact .inr (.inl rfl)

theorem Ends.brace (after : List Char) : Ends ('\x7d' :: after) := by
  rintro c ⟨⟩
  exact .inr (.inr rfl)

theorem Ends.items {after : List Char} (h : Ends after) (l : Layout) (level : Nat)
    (js : List Json) : Ends (writeItems l level js after) := by
  cases js with
  | nil => exact h
  | cons item items =>
    rintro c ⟨⟩
    exact .inl rfl

theorem Ends.fields {after : List Char} (h : Ends after) (l : Layout) (level : Nat)
    (fields : List (String × Json)) : Ends (writeFields l level fields after) := by
  cases fields with
  | nil => exact h
  | cons field fields =>
    rintro c ⟨⟩
    exact .inl rfl

/-! ## The compact layout -/

theorem write_arr_compact (level : Nat) (item : Json) (items : List Json) (after : List Char) :
    (arr (item :: items)).write .compact level after =
      '[' :: item.write .compact (level + 1)
        (writeItems .compact (level + 1) items (']' :: after)) := by
  rw [write]
  rfl

theorem write_obj_compact (level : Nat) (name : String) (value : Json)
    (fields : List (String × Json)) (after : List Char) :
    (obj ((name, value) :: fields)).write .compact level after =
      '\x7b' :: writeString false name (':' :: value.write .compact (level + 1)
        (writeFields .compact (level + 1) fields ('\x7d' :: after))) := by
  rw [write]
  rfl

theorem writeItems_compact (level : Nat) (item : Json) (items : List Json) (after : List Char) :
    writeItems .compact level (item :: items) after =
      ',' :: item.write .compact level (writeItems .compact level items after) := by
  rw [writeItems]
  rfl

theorem writeFields_compact (level : Nat) (name : String) (value : Json)
    (fields : List (String × Json)) (after : List Char) :
    writeFields .compact level ((name, value) :: fields) after =
      ',' :: writeString false name (':' :: value.write .compact level
        (writeFields .compact level fields after)) := by
  rw [writeFields]
  rfl

/-! ## Steps of the reader -/

section
variable {fuel : Nat} {item : Json} {rest : List Char}

theorem value_string (fuel : Nat) (s : String) (after : List Char) :
    value (fuel + 1) (writeString false s after) = .ok (.str s, after) := by
  rw [writeString, value, stringRest_string]
  rfl

theorem value_list {cs : List Char} (h : value fuel cs = .ok (item, rest)) :
    value (fuel + 2) ('[' :: cs) = items (fuel + 1) [] cs := by
  have hskip := skipBlank_of_value h
  obtain ⟨c, cs', rfl, -, hc, -⟩ := head_of_value h
  rw [value, hskip]
  split
  · next heq =>
    cases heq
    exact absurd rfl hc
  · rfl

theorem items_comma {cs : List Char} (h : value fuel cs = .ok (item, ',' :: rest))
    (hskip : skipBlank rest = rest) (read : List Json) :
    items (fuel + 1) read cs = items fuel (item :: read) rest := by
  rw [items, h]
  show items fuel (item :: read) (skipBlank rest) = _
  rw [hskip]

theorem items_end {cs : List Char} (h : value fuel cs = .ok (item, ']' :: rest))
    (read : List Json) : items (fuel + 1) read cs = .ok (.arr (item :: read).reverse, rest) := by
  rw [items, h]
  rfl

theorem value_object (fuel : Nat) (name : String) (cs : List Char) :
    value (fuel + 1) ('\x7b' :: writeString false name cs) =
      members fuel [] (writeString false name cs) := by
  rw [value, writeString]
  rfl

/-- What follows the value of a field decides how the object goes on. -/
theorem members_field {cs : List Char} (h : value fuel cs = .ok (item, rest))
    (read : List (String × Json)) (name : String) :
    members (fuel + 1) read (writeString false name (':' :: cs)) =
      match skipBlank rest with
      | ',' :: rest => members fuel (Entries.set read name item) (skipBlank rest)
      | '\x7d' :: rest => .ok (.obj (Entries.set read name item), rest)
      | _ => .error .malformed := by
  have hcolon : skipBlank (':' :: cs) = ':' :: cs := rfl
  rw [writeString, members, stringRest_string]
  dsimp only [bind, Except.bind]
  rw [hcolon]
  split
  · next tail heq =>
    cases heq
    rw [skipBlank_of_value h, h]
    rfl
  · next hne => exact absurd rfl (hne cs)

theorem members_comma {cs : List Char} (h : value fuel cs = .ok (item, ',' :: rest))
    (hskip : skipBlank rest = rest) (read : List (String × Json)) (name : String) :
    members (fuel + 1) read (writeString false name (':' :: cs)) =
      members fuel (Entries.set read name item) rest := by
  rw [members_field h]
  show members fuel (Entries.set read name item) (skipBlank rest) = _
  rw [hskip]

theorem members_end {cs : List Char} (h : value fuel cs = .ok (item, '\x7d' :: rest))
    (read : List (String × Json)) (name : String) :
    members (fuel + 1) read (writeString false name (':' :: cs)) =
      .ok (.obj (Entries.set read name item), rest) := by
  rw [members_field h]
  rfl

end

/-! ## Documents -/

/-- Induction on documents: of a list or an object, all items and values come before it. -/
@[elab_as_elim]
theorem induction {P : Json → Prop} (null : P .null) (bool : ∀ b, P (.bool b))
    (int : ∀ n, P (.int n)) (float : ∀ x, P (.float x)) (str : ∀ s, P (.str s))
    (arr : ∀ items, (∀ item ∈ items, P item) → P (.arr items))
    (obj : ∀ fields : List (String × Json), (∀ field ∈ fields, P field.2) → P (.obj fields))
    (j : Json) : P j := by
  match j with
  | .null => exact null
  | .bool b => exact bool b
  | .int n => exact int n
  | .float x => exact float x
  | .str s => exact str s
  | .arr items => exact arr items fun item _ => induction null bool int float str arr obj item
  | .obj fields =>
    exact obj fields fun field hmem => induction null bool int float str arr obj field.2
termination_by sizeOf j
decreasing_by
  · have := List.sizeOf_lt_of_mem ‹_›
    rw [Json.arr.sizeOf_spec]
    omega
  · have hlt := List.sizeOf_lt_of_mem hmem
    rw [Prod.mk.sizeOf_spec] at hlt
    rw [Json.obj.sizeOf_spec]
    omega

/-- The document is read back wherever it can stand, if there is fuel for its text: two units for
each character of it. -/
def ReadsBack (j : Json) : Prop :=
  ∀ level fuel after, Ends after →
    2 * (j.write .compact level after).length ≤ fuel + 2 * after.length →
      value fuel (j.write .compact level after) = .ok (j, after)

theorem items_write {item : Json} {list : List Json} (h : ∀ j ∈ item :: list, ReadsBack j)
    {level fuel : Nat} {after : List Char} (read : List Json)
    (hf : 2 * (item.write .compact level (writeItems .compact level list (']' :: after))).length
      + 1 ≤ fuel + 2 * after.length) :
    items fuel read (item.write .compact level (writeItems .compact level list (']' :: after))) =
      .ok (.arr (read.reverse ++ item :: list), after) := by
  induction list generalizing item read fuel with
  | nil =>
    have hlen := length_write .compact level item (']' :: after)
    rw [writeItems] at hf ⊢
    rw [List.length_cons] at hlen
    obtain ⟨fuel, rfl⟩ : ∃ f, fuel = f + 1 := ⟨fuel - 1, by omega⟩
    have hitem := h item List.mem_cons_self level fuel _ (.bracket after)
      (by rw [List.length_cons]; omega)
    rw [items_end hitem, List.reverse_cons]
  | cons next list ih =>
    have h' : ∀ j ∈ next :: list, ReadsBack j := fun j hj => h j (List.mem_cons_of_mem _ hj)
    have hends := (Ends.bracket after).items .compact level
    have hlen := length_write .compact level item
      (writeItems .compact level (next :: list) (']' :: after))
    have hlen' := length_write .compact level next (writeItems .compact level list (']' :: after))
    have hrest := length_writeItems .compact level list (']' :: after)
    have hnext := h' next List.mem_cons_self level _ _ (hends list) (Nat.le_add_right _ _)
    rw [writeItems_compact, List.length_cons] at hlen
    rw [writeItems_compact] at hf ⊢
    rw [List.length_cons] at hrest
    obtain ⟨fuel, rfl⟩ : ∃ f, fuel = f + 1 := ⟨fuel - 1, by omega⟩
    have hitem := h item List.mem_cons_self level fuel _ (hends (next :: list))
    rw [writeItems_compact, List.length_cons] at hitem
    rw [items_comma (hitem (by omega)) (skipBlank_of_value hnext), ih h' (item :: read) (by omega),
      List.reverse_cons, List.append_assoc]
    rfl

theorem members_write {name : String} {field : Json} {fields : List (String × Json)}
    (h : ∀ f ∈ (name, field) :: fields, ReadsBack f.2) {level fuel : Nat} {after : List Char}
    (read : List (String × Json))
    (hn : ((read ++ (name, field) :: fields).map (·.1)).Nodup)
    (hf : 2 * (writeString false name (':' :: field.write .compact level
      (writeFields .compact level fields ('\x7d' :: after)))).length ≤ fuel + 2 * after.length) :
    members fuel read (writeString false name (':' :: field.write .compact level
      (writeFields .compact level fields ('\x7d' :: after)))) =
      .ok (.obj (read ++ (name, field) :: fields), after) := by
  induction fields generalizing name field read fuel with
  | nil =>
    have hlen := length_writeString false name (':' :: field.write .compact level ('\x7d' :: after))
    have hlen' := length_write .compact level field ('\x7d' :: after)
    rw [writeFields] at hf ⊢
    rw [List.length_cons] at hlen hlen'
    obtain ⟨fuel, rfl⟩ : ∃ f, fuel = f + 1 := ⟨fuel - 1, by omega⟩
    have hfield : ReadsBack field := h (name, field) List.mem_cons_self
    have hfield := hfield level fuel _ (.brace after) (by rw [List.length_cons]; omega)
    rw [members_end hfield, set_of_nodup hn]
  | cons next fields ih =>
    obtain ⟨next, value⟩ := next
    have h' : ∀ f ∈ (next, value) :: fields, ReadsBack f.2 :=
      fun f hf => h f (List.mem_cons_of_mem _ hf)
    have hn' : ((read ++ [(name, field)] ++ (next, value) :: fields).map (·.1)).Nodup := by
      rw [List.append_assoc]
      exact hn
    have hends := (Ends.brace after).fields .compact level ((next, value) :: fields)
    have hlen := length_writeString false name (':' :: field.write .compact level
      (writeFields .compact level ((next, value) :: fields) ('\x7d' :: after)))
    have hlen' := length_write .compact level field
      (writeFields .compact level ((next, value) :: fields) ('\x7d' :: after))
    have hrest := length_writeFields .compact level ((next, value) :: fields) ('\x7d' :: after)
    rw [writeFields_compact] at hf hlen hlen' hrest ⊢
    rw [List.length_cons] at hlen
    rw [List.length_cons] at hlen'
    rw [List.length_cons, List.length_cons] at hrest
    obtain ⟨fuel, rfl⟩ : ∃ f, fuel = f + 1 := ⟨fuel - 1, by omega⟩
    have hfield : ReadsBack field := h (name, field) List.mem_cons_self
    have hfield := hfield level fuel _ hends
    rw [writeFields_compact, List.length_cons] at hfield
    rw [members_comma (hfield (by omega)) rfl, set_of_nodup hn, ih h' _ hn' (by omega),
      List.append_assoc]
    rfl

/-- Some fuel is left after a document that starts where the fuel suffices. -/
theorem fuel_of_length {j : Json} {level fuel : Nat} {after : List Char}
    (hf : 2 * (j.write .compact level after).length ≤ fuel + 2 * after.length) :
    ∃ f, fuel = f + 2 := by
  have hlen := length_write .compact level j after
  exact ⟨fuel - 2, by omega⟩

theorem value_write {j : Json} (hs : IsSound j) : ReadsBack j := by
  induction j using Json.induction with
  | null =>
    intro level fuel after ha hf
    obtain ⟨fuel, rfl⟩ := fuel_of_length hf
    rw [write]
    rfl
  | bool b =>
    intro level fuel after ha hf
    obtain ⟨fuel, rfl⟩ := fuel_of_length hf
    rw [write]
    cases b <;> rfl
  | int n =>
    intro level fuel after ha hf
    obtain ⟨fuel, rfl⟩ := fuel_of_length hf
    rw [write]
    exact value_digits hs.lt_tooLarge ha _
  | float x =>
    intro level fuel after ha hf
    obtain ⟨fuel, rfl⟩ := fuel_of_length hf
    rw [write]
    exact value_floatText x ha _
  | str s =>
    intro level fuel after ha hf
    obtain ⟨fuel, rfl⟩ := fuel_of_length hf
    rw [write]
    exact value_string _ s after
  | arr items ih =>
    intro level fuel after ha hf
    obtain ⟨fuel, rfl⟩ := fuel_of_length hf
    rw [isSound_arr] at hs
    cases items with
    | nil =>
      rw [write]
      rfl
    | cons item items =>
      have hall : ∀ j ∈ item :: items, ReadsBack j := fun j hj => ih j hj (hs j hj)
      have hrest := length_writeItems .compact (level + 1) items (']' :: after)
      have hends := (Ends.bracket after).items .compact (level + 1) items
      rw [write_arr_compact, List.length_cons] at hf
      rw [List.length_cons] at hrest
      have hitem := hall item List.mem_cons_self (level + 1) fuel _ hends (by omega)
      rw [write_arr_compact, value_list hitem, items_write hall [] (by omega)]
      rfl
  | obj fields ih =>
    intro level fuel after ha hf
    obtain ⟨fuel, rfl⟩ := fuel_of_length hf
    rw [isSound_obj] at hs
    obtain ⟨hn, hs⟩ := hs
    cases fields with
    | nil =>
      rw [write]
      rfl
    | cons field fields =>
      obtain ⟨name, field⟩ := field
      have hall : ∀ f ∈ (name, field) :: fields, ReadsBack f.2 := fun f hf => ih f hf (hs f hf)
      rw [write_obj_compact, List.length_cons] at hf
      rw [write_obj_compact, value_object, members_write hall [] hn (by omega)]
      rfl

/-! ## Whole texts -/

theorem ofText_render {j : Json} (hs : IsSound j) : ofText (j.render .compact) = .ok j := by
  have hends : Ends [] := by
    rintro c ⟨⟩
  have hread := value_write hs 0 (2 * (j.write .compact 0 []).length + 2) [] hends (by omega)
  obtain ⟨c, cs, hcs, -, -, hmark⟩ := head_of_value hread
  have hhead : ((j.write .compact 0 []).head? == some '\uFEFF') = false := by
    rw [hcs, List.head?_cons, beq_eq_false_iff_ne]
    intro heq
    exact hmark (Option.some.inj heq)
  unfold ofText ofChars render
  rw [String.toList_ofList, hhead, skipBlank_of_value hread]
  dsimp only [bind, Except.bind]
  rw [hread]
  rfl

end ScriptLang.Json
