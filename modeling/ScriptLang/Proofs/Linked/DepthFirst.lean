import Mathlib.Data.List.Perm.Subperm
import Mathlib.Logic.Relation

/-!
# Depth-first preorder

The order in which a depth-first search first comes to the vertices of a graph, without the search:
the next vertex is the first one not visited yet among the successors of the last visited vertex
that has such a successor at all. `next` gives the successors of a vertex in their order.

Results:
* `DepthFirst.comparable`: of two beginnings of the search one goes on where the other ends;
* `DepthFirst.isPrefix`: all beginnings of the search are initial segments of one order;
* `DepthFirst.exists_order`: if the vertices that can be reached are finitely many, every beginning
  goes on to an order of all of them.
-/
namespace ScriptLang

variable {α : Type}

/-- The search stands at a visited vertex that has the successors `todo` left. It has come to all
the earlier successors, and to all successors of the vertices that it has visited since. -/
def Awaits (next : α → List α) (visited todo : List α) : Prop :=
  ∃ before u since seen, visited = before ++ u :: since ∧ next u = seen ++ todo ∧
    (∀ w ∈ seen, w ∈ visited) ∧ ∀ w ∈ since, ∀ x ∈ next w, x ∈ visited

/-- The search comes to the vertex `v` next. -/
def ComesNext (next : α → List α) (visited : List α) (v : α) : Prop :=
  v ∉ visited ∧ ∃ rest, Awaits next visited (v :: rest)

/-- The vertices that the search from a vertex comes to first, in their order. -/
inductive DepthFirst (next : α → List α) (start : α) : List α → Prop
  | start : DepthFirst next start [start]
  | visit {visited : List α} {v : α} : DepthFirst next start visited → ComesNext next visited v →
      DepthFirst next start (visited ++ [v])

/-- The order of all vertices that can be reached. -/
structure DepthFirstOrder (next : α → List α) (start : α) (order : List α) : Prop where
  depthFirst : DepthFirst next start order
  mem_iff : ∀ v, v ∈ order ↔ Relation.ReflTransGen (fun u v => v ∈ next u) start v

namespace Awaits

variable {next : α → List α} {visited todo : List α} {v : α}

/-- A search begins with the successors of a vertex it has just come to. -/
theorem enter (next : α → List α) (visited : List α) (v : α) :
    Awaits next (visited ++ [v]) (next v) :=
  ⟨visited, v, [], [], rfl, rfl, by simp, by simp⟩

theorem seen (h : Awaits next visited (v :: todo)) (hv : v ∈ visited) :
    Awaits next visited todo := by
  obtain ⟨before, u, since, seen, rfl, hu, hseen, hsince⟩ := h
  refine ⟨before, u, since, seen ++ [v], rfl, by simp [hu], ?_, hsince⟩
  intro w hw
  rcases List.mem_append.mp hw with hw | hw
  · exact hseen w hw
  · rwa [List.mem_singleton.mp hw]

/-- The search comes back from a vertex when it has come to all successors of that vertex and of
those visited since. -/
theorem leave {more : List α} (h : Awaits next visited (v :: todo))
    (hmore : ∀ w ∈ v :: more, ∀ x ∈ next w, x ∈ visited ++ v :: more) :
    Awaits next (visited ++ v :: more) todo := by
  obtain ⟨before, u, since, seen, rfl, hu, hseen, hsince⟩ := h
  refine ⟨before, u, since ++ v :: more, seen ++ [v], by simp, by simp [hu], ?_, ?_⟩
  · intro w hw
    rcases List.mem_append.mp hw with hw | hw
    · exact List.mem_append_left _ (hseen w hw)
    · simp [List.mem_singleton.mp hw]
  · intro w hw x hx
    rcases List.mem_append.mp hw with hw | hw
    · exact List.mem_append_left _ (hsince w hw x hx)
    · exact hmore w hw x hx

end Awaits

theorem exists_first {P : α → Prop} {l : List α} (h : ∃ a ∈ l, P a) :
    ∃ before a after, l = before ++ a :: after ∧ P a ∧ ∀ b ∈ before, ¬ P b := by
  classical
  obtain ⟨a, ha⟩ := Option.isSome_iff_exists.mp
    (List.find?_isSome (p := fun a => decide (P a)) |>.mpr (by simpa using h))
  obtain ⟨hp, before, after, hl, hbefore⟩ := List.find?_eq_some_iff_append.mp ha
  exact ⟨before, a, after, hl, by simpa using hp, by simpa using hbefore⟩

namespace ComesNext

variable {next : α → List α} {visited : List α} {v : α}

/-- The vertex that the search stands at is the last one that has a successor left. -/
theorem last {before since : List α} {u w : α} {rest : List α} (hv : v ∉ before ++ u :: since)
    (hu : ∃ seen, next u = seen ++ v :: rest) {before' since' : List α}
    (h : before ++ u :: since = before' ++ w :: since')
    (hsince : ∀ x ∈ since', ∀ y ∈ next x, y ∈ before' ++ w :: since') :
    since'.length ≤ since.length := by
  by_contra hlt
  -- then `u` is one of the vertices visited since
  have hu' : u :: since <:+ before ++ u :: since := List.suffix_append _ _
  have hs : since' <:+ before ++ u :: since := by
    rw [h]
    exact (List.suffix_cons w since').trans (List.suffix_append _ _)
  have hsuffix : u :: since <:+ since' :=
    List.suffix_of_suffix_length_le hu' hs (by simp only [List.length_cons]; omega)
  obtain ⟨seen, hu⟩ := hu
  have := hsince u (hsuffix.subset (by simp)) v (by simp [hu])
  rw [← h] at this
  exact hv this

theorem unique {v' : α} (h : ComesNext next visited v) (h' : ComesNext next visited v') :
    v = v' := by
  obtain ⟨hv, rest, before, u, since, seen, rfl, hu, hseen, hsince⟩ := h
  obtain ⟨hv', rest', before', u', since', seen', heq, hu', hseen', hsince'⟩ := h'
  have hle := last hv ⟨seen, hu⟩ heq (heq ▸ hsince')
  have hge := last (heq ▸ hv') ⟨seen', hu'⟩ heq.symm hsince
  obtain ⟨-, hsame⟩ := List.append_inj' heq (by simp; omega)
  cases hsame
  -- both are the first successor that has not been visited
  rw [hu] at hu'
  rcases List.append_eq_append_iff.mp hu' with ⟨c, hc, hrest⟩ | ⟨c, hc, hrest⟩
  · cases c with
    | nil => exact (List.cons.inj hrest).1
    | cons x c =>
      cases hrest
      exact absurd (hseen' v (by simp [hc])) hv
  · cases c with
    | nil => exact (List.cons.inj hrest).1.symm
    | cons x c =>
      cases hrest
      exact absurd (hseen v' (by simp [hc])) hv'

/-- As long as some successor has not been visited, the search goes on. -/
theorem exists_of_mem {w x : α} (hw : w ∈ visited) (hx : x ∈ next w) (hn : x ∉ visited) :
    ∃ v, ComesNext next visited v := by
  -- the last visited vertex that has a successor left
  obtain ⟨since, u, before, hsplit, ⟨y, hy, hleft⟩, hsince⟩ :=
    exists_first (P := fun w => ∃ x ∈ next w, x ∉ visited) (l := visited.reverse)
      ⟨w, List.mem_reverse.mpr hw, x, hx, hn⟩
  obtain ⟨seen, v, rest, hu, hv, hseen⟩ := exists_first (P := (· ∉ visited)) ⟨y, hy, hleft⟩
  refine ⟨v, hv, rest, before.reverse, u, since.reverse, seen, ?_, hu, ?_, ?_⟩
  · rw [← List.reverse_reverse visited, hsplit]
    simp
  · exact fun w hw => Classical.not_not.mp (hseen w hw)
  · intro w hw x hx
    by_contra h
    exact hsince w (List.mem_reverse.mp hw) ⟨x, hx, h⟩

end ComesNext

namespace DepthFirst

variable {next : α → List α} {start : α} {visited : List α}

theorem nodup (h : DepthFirst next start visited) : visited.Nodup := by
  induction h with
  | start => simp
  | visit _ hv ih => exact List.nodup_append.mpr ⟨ih, by simp, by
      rintro a ha b hb rfl
      rw [List.mem_singleton.mp hb] at ha
      exact hv.1 ha⟩

theorem start_mem (h : DepthFirst next start visited) : start ∈ visited := by
  induction h with
  | start => simp
  | visit _ _ ih => exact List.mem_append_left _ ih

theorem reachable (h : DepthFirst next start visited) {v : α} (hv : v ∈ visited) :
    Relation.ReflTransGen (fun u v => v ∈ next u) start v := by
  induction h generalizing v with
  | start => rw [List.mem_singleton.mp hv]
  | @visit visited w _ hw ih =>
    rcases List.mem_append.mp hv with hv | hv
    · exact ih hv
    · rw [List.mem_singleton.mp hv]
      obtain ⟨-, rest, before, u, since, seen, hsplit, hu, -, -⟩ := hw
      have hmem : u ∈ visited := by simp [hsplit]
      exact (ih hmem).tail (by simp [hu])

/-- Vertices whose successors are all among them are all that can be reached. -/
theorem mem_of_closed (h : DepthFirst next start visited)
    (hc : ∀ w ∈ visited, ∀ x ∈ next w, x ∈ visited) {v : α}
    (hv : Relation.ReflTransGen (fun u v => v ∈ next u) start v) : v ∈ visited := by
  induction hv with
  | refl => exact h.start_mem
  | tail _ hx ih => exact hc _ ih _ hx

/-- The search has come to each vertex of a longer search as the next one. -/
theorem comesNext {order : List α} (h : DepthFirst next start order) :
    ∀ {visited : List α} {v : α} {rest : List α}, order = visited ++ v :: rest → visited ≠ [] →
      ComesNext next visited v := by
  induction h with
  | start =>
    intro visited v rest hsplit hne
    cases visited with
    | nil => exact absurd rfl hne
    | cons _ visited => simp at hsplit
  | @visit order w _ hw ih =>
    intro visited v rest hsplit hne
    rcases List.eq_nil_or_concat rest with rfl | ⟨rest, x, rfl⟩
    · obtain ⟨rfl, hv⟩ := List.append_inj' hsplit rfl
      cases hv
      exact hw
    · rw [List.concat_eq_append, ← List.cons_append, ← List.append_assoc] at hsplit
      obtain ⟨hinit, -⟩ := List.append_inj' hsplit rfl
      exact ih hinit hne

theorem ne_nil (h : DepthFirst next start visited) : visited ≠ [] :=
  List.ne_nil_of_mem h.start_mem

theorem start_isPrefix (h : DepthFirst next start visited) : [start] <+: visited := by
  induction h with
  | start => exact List.prefix_refl _
  | visit _ _ ih => exact ih.trans (List.prefix_append _ _)

/-- Of two beginnings of the search one goes on where the other ends. -/
theorem comparable {visited' : List α} (h : DepthFirst next start visited)
    (h' : DepthFirst next start visited') : visited <+: visited' ∨ visited' <+: visited := by
  induction h with
  | start => exact .inl h'.start_isPrefix
  | @visit visited v h hv ih =>
    rcases ih with ⟨rest, rfl⟩ | hbegins
    · cases rest with
      | nil => exact .inr ⟨[v], by rw [List.append_nil]⟩
      | cons w rest =>
        rw [hv.unique (h'.comesNext rfl h.ne_nil)]
        exact .inl ⟨rest, by simp⟩
    · exact .inr (hbegins.trans (List.prefix_append _ _))

/-- The beginnings of the search are the initial segments of the order. -/
theorem isPrefix {order : List α} (h : DepthFirst next start visited)
    (ho : DepthFirstOrder next start order) : visited <+: order := by
  rcases h.comparable ho.depthFirst with hbegins | ⟨rest, rfl⟩
  · exact hbegins
  · cases rest with
    | nil => simp
    | cons v rest =>
      have hv : v ∈ order := (ho.mem_iff v).mpr (h.reachable (by simp))
      exact absurd rfl ((List.nodup_append.mp h.nodup).2.2 v hv v (by simp))

/-- Two searches that come upon something for the first time come upon the same. -/
theorem first_unique {P : α → Prop} {visited' : List α} {v v' : α}
    (h : DepthFirst next start (visited ++ [v])) (h' : DepthFirst next start (visited' ++ [v']))
    (hv : P v) (hv' : P v') (hbefore : ∀ w ∈ visited, ¬ P w) (hbefore' : ∀ w ∈ visited', ¬ P w) :
    v = v' := by
  have hlast {as bs : List α} {a b : α} (hle : as ++ [a] <+: bs ++ [b]) (ha : P a)
      (hbs : ∀ w ∈ bs, ¬ P w) : a = b := by
    rcases List.prefix_concat_iff.mp hle with heq | hle
    · exact List.singleton_injective (List.append_inj' heq rfl).2
    · exact absurd ha (hbs a (hle.subset (by simp)))
  rcases h.comparable h' with hle | hle
  · exact hlast hle hv hbefore'
  · exact (hlast hle hv' hbefore).symm

/-- A search that has begun has come to all vertices, or it goes on. -/
theorem complete_or_visit (h : DepthFirst next start visited) :
    DepthFirstOrder next start visited ∨ ∃ v, DepthFirst next start (visited ++ [v]) := by
  by_cases hc : ∀ w ∈ visited, ∀ x ∈ next w, x ∈ visited
  · exact .inl ⟨h, fun v => ⟨h.reachable, h.mem_of_closed hc⟩⟩
  · simp only [not_forall] at hc
    obtain ⟨w, hw, x, hx, hnot⟩ := hc
    obtain ⟨v, hv⟩ := ComesNext.exists_of_mem hw hx hnot
    exact .inr ⟨v, h.visit hv⟩

/-- If what can be reached is among finitely many vertices, a search that has begun comes to its
end. -/
theorem exists_order (bound : List α)
    (hb : ∀ v, Relation.ReflTransGen (fun u v => v ∈ next u) start v → v ∈ bound)
    (n : Nat) (h : DepthFirst next start visited) (hn : bound.length ≤ visited.length + n) :
    ∃ order, DepthFirstOrder next start order := by
  have hle : ∀ {visited : List α}, DepthFirst next start visited →
      visited.length ≤ bound.length := fun h =>
    (List.subperm_of_subset h.nodup fun v hv => hb v (h.reachable hv)).length_le
  induction n generalizing visited with
  | zero =>
    rcases h.complete_or_visit with ho | ⟨v, hv⟩
    · exact ⟨visited, ho⟩
    · have := hle hv
      simp only [List.length_append, List.length_singleton] at this
      omega
  | succ n ih =>
    rcases h.complete_or_visit with ho | ⟨v, hv⟩
    · exact ⟨visited, ho⟩
    · refine ih hv ?_
      simp only [List.length_append, List.length_singleton]
      omega

end DepthFirst

end ScriptLang
