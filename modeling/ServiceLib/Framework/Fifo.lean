import Mathlib.Data.List.Nodup
import Mathlib.Data.List.Perm.Basic

namespace ServiceLib

theorem pair_sublist_cons {α : Type*} {x y a : α} {l : List α} :
    [x, y].Sublist (a :: l) ↔ (x = a ∧ y ∈ l) ∨ [x, y].Sublist l := by
  constructor
  · intro h
    cases h with
    | cons _ h => exact .inr h
    | cons_cons _ h => exact .inl ⟨rfl, List.singleton_sublist.mp h⟩
  · rintro (⟨rfl, hy⟩ | h)
    · exact (List.singleton_sublist.mpr hy).cons_cons x
    · exact h.cons a

/-- A sublist without repetition keeps the order of the members it has. -/
theorem pair_sublist_of_mem {α : Type*} {x y : α} {l k : List α} (hnd : l.Nodup)
    (hk : k.Sublist l) (hxy : [x, y].Sublist l) (hx : x ∈ k) (hy : y ∈ k) : [x, y].Sublist k := by
  induction hk with
  | slnil => simp at hx
  | cons a hk ih =>
    obtain ⟨ha, hl⟩ := List.nodup_cons.mp hnd
    rcases pair_sublist_cons.mp hxy with ⟨rfl, _⟩ | hxy
    · exact absurd (hk.subset hx) ha
    · exact ih hl hxy hx hy
  | @cons_cons k l a hk ih =>
    obtain ⟨ha, hl⟩ := List.nodup_cons.mp hnd
    apply pair_sublist_cons.mpr
    rcases pair_sublist_cons.mp hxy with ⟨rfl, hy'⟩ | hxy
    · refine .inl ⟨rfl, ?_⟩
      rcases List.mem_cons.mp hy with rfl | hy
      · exact absurd hy' ha
      · exact hy
    · have hxl : x ∈ l := hxy.subset (by simp)
      have hyl : y ∈ l := hxy.subset (by simp)
      have hx' : x ∈ k := (List.mem_cons.mp hx).resolve_left (fun h => ha (h ▸ hxl))
      have hy' : y ∈ k := (List.mem_cons.mp hy).resolve_left (fun h => ha (h ▸ hyl))
      exact .inr (ih hl hxy hx' hy')

theorem not_pair_sublist_swap {α : Type*} {x y : α} {l : List α} (hnd : l.Nodup)
    (hxy : [x, y].Sublist l) (hyx : [y, x].Sublist l) : False := by
  induction l with
  | nil => simp at hxy
  | cons a l ih =>
    obtain ⟨ha, hl⟩ := List.nodup_cons.mp hnd
    rcases pair_sublist_cons.mp hxy with ⟨rfl, hy⟩ | hxy
    · rcases pair_sublist_cons.mp hyx with ⟨rfl, hx⟩ | hyx
      · exact ha hx
      · have hxl : x ∈ l := hyx.subset (by simp)
        exact ha hxl
    · have hyl : y ∈ l := hxy.subset (by simp)
      rcases pair_sublist_cons.mp hyx with ⟨rfl, _⟩ | hyx
      · exact ha hyl
      · exact ih hl hxy hyx

/-- In a list without repetition nothing before a member of the front part comes after it. -/
theorem pair_sublist_left {α : Type*} {x y : α} {l k : List α} (hnd : (l ++ k).Nodup)
    (hxy : [x, y].Sublist (l ++ k)) (hy : y ∈ l) : [x, y].Sublist l := by
  have hyk : y ∉ k := fun h => (List.nodup_append'.mp hnd).2.2 hy h
  obtain ⟨l₁, l₂, hl, h₁, h₂⟩ := List.sublist_append_iff.mp hxy
  have hx : x ∈ l := by
    cases l₁ with
    | nil => exact absurd (h₂.subset (by simp [← List.nil_append l₂ ▸ hl])) hyk
    | cons a l₁ =>
      obtain ⟨rfl, _⟩ := List.cons.inj hl
      exact h₁.subset List.mem_cons_self
  exact pair_sublist_of_mem hnd (List.sublist_append_left l k) hxy hx hy

/-- The whole life of a queue: what was pushed, what was taken from its front, what was removed
from its middle and what is still in it. -/
structure Fifo (α : Type*) where
  pushed : List α
  taken : List α
  removed : List α
  queue : List α
  /-- What left by the front and what waits keep the order of the pushes. -/
  order : (taken ++ queue).Sublist pushed
  /-- Nothing is lost and nothing is made up. -/
  parts : pushed.Perm (taken ++ removed ++ queue)

namespace Fifo

variable {α : Type*} (F : Fifo α)

def empty : Fifo α := ⟨[], [], [], [], by simp, by simp⟩

def push (x : α) : Fifo α where
  pushed := F.pushed ++ [x]
  taken := F.taken
  removed := F.removed
  queue := F.queue ++ [x]
  order := by simpa using F.order.append_right [x]
  parts := by simpa using F.parts.append_right [x]

def take (x : α) (q : List α) (h : F.queue = x :: q) : Fifo α where
  pushed := F.pushed
  taken := F.taken ++ [x]
  removed := F.removed
  queue := q
  order := by simpa [h] using F.order
  parts := by
    refine F.parts.trans ?_
    rw [h, List.append_assoc, List.append_assoc, List.append_assoc]
    exact (List.perm_middle).append_left F.taken

/-- Remove from the queue all that the predicate chooses. -/
def remove (p : α → Bool) : Fifo α where
  pushed := F.pushed
  taken := F.taken
  removed := F.removed ++ F.queue.filter p
  queue := F.queue.filter fun x => !p x
  order := (List.filter_sublist.append_left F.taken).trans F.order
  parts := by
    refine F.parts.trans ?_
    rw [List.append_assoc, List.append_assoc, List.append_assoc]
    exact ((List.filter_append_perm p F.queue).symm.append_left F.removed).append_left F.taken

theorem nodup_parts (hnd : F.pushed.Nodup) : (F.taken ++ F.removed ++ F.queue).Nodup :=
  F.parts.nodup_iff.mp hnd

theorem mem_pushed {x : α} : x ∈ F.pushed ↔ x ∈ F.taken ∨ x ∈ F.removed ∨ x ∈ F.queue := by
  rw [F.parts.mem_iff, List.mem_append, List.mem_append, or_assoc]

theorem taken_sublist : F.taken.Sublist F.pushed := (List.sublist_append_left _ _).trans F.order

/-- Of what was pushed without repetition each thing is in exactly one place. -/
theorem one_place (hnd : F.pushed.Nodup) {x : α} (hx : x ∈ F.pushed) :
    (x ∈ F.taken ∧ x ∉ F.removed ∧ x ∉ F.queue) ∨ (x ∉ F.taken ∧ x ∈ F.removed ∧ x ∉ F.queue) ∨
      (x ∉ F.taken ∧ x ∉ F.removed ∧ x ∈ F.queue) := by
  have h := F.nodup_parts hnd
  rw [List.nodup_append', List.nodup_append'] at h
  obtain ⟨⟨_, _, htr⟩, _, hq⟩ := h
  have hq' : x ∈ F.taken ++ F.removed → x ∉ F.queue := fun h => hq h
  rw [List.mem_append] at hq'
  have htr' : x ∈ F.taken → x ∉ F.removed := fun h => htr h
  have hm := F.mem_pushed.mp hx
  tauto

/-- What was pushed before a thing already taken is not waiting any more. -/
theorem not_waiting_of_before (hnd : F.pushed.Nodup) {x y : α} (hxy : [x, y].Sublist F.pushed)
    (hy : y ∈ F.taken) : x ∈ F.taken ∨ x ∈ F.removed := by
  have hx : x ∈ F.pushed := hxy.subset (by simp)
  rcases F.mem_pushed.mp hx with hx | hx | hx
  · exact .inl hx
  · exact .inr hx
  · have h := pair_sublist_of_mem hnd F.order hxy (List.mem_append_right _ hx)
      (List.mem_append_left _ hy)
    have h' : [y, x].Sublist (F.taken ++ F.queue) :=
      (List.singleton_sublist.mpr hy).append (List.singleton_sublist.mpr hx)
    exact (not_pair_sublist_swap (F.order.nodup hnd) h h').elim

end Fifo

end ServiceLib
