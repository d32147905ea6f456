import ServiceLib.Model.History

namespace ServiceLib

variable {T : ArgTypes} {n : Nat} {ok : History T n → Sys T n → Tid n × Choice T n → Prop}
  {tr : History T n} {s : Sys T n}

/-- Serial numbers tell all pushed jobs apart. -/
structure Numbered (tr : History T n) (s : Sys T n) : Prop where
  below : ∀ w, ∀ j ∈ pushedOn w tr, j.serial < s.mem.fresh
  nodup : ∀ w, (pushedOn w tr).Nodup
  apart : ∀ {v w j}, j ∈ pushedOn v tr → j ∈ pushedOn w tr → v = w

theorem Numbered.step {t : Tid n} {i : Choice T n} {mv : Move T n} (h : Numbered tr s)
    (hm : Moves s t i mv) : Numbered (tr ++ [(t, mv.action)]) (s.apply t mv) := by
  have hg := hm.queue_guard
  have hfresh : s.mem.fresh ≤ (s.apply t mv).mem.fresh := by
    rw [Sys.apply_mem, Mem.perform_fresh]
    cases mv.action <;> simp
  by_cases hp : ∃ v j strand, mv.action = .pushed v j strand
  · obtain ⟨v, j, strand, ha⟩ := hp
    rw [ha] at hg
    have hnew : ∀ w, j ∉ pushedOn w tr := fun w hj => by
      have := h.below w j hj
      omega
    have hpush (w : Fin n) : pushedOn w (tr ++ [(t, mv.action)]) =
        if w = v then pushedOn w tr ++ [j] else pushedOn w tr := by
      rw [pushedOn_snoc, ha]
      by_cases hw : w = v <;> simp [hw]
    refine ⟨fun w j' hj' => ?_, fun w => ?_, fun {v' w' j'} h1 h2 => ?_⟩
    · have hf : (s.apply t mv).mem.fresh = s.mem.fresh + 1 := by
        rw [Sys.apply_mem, Mem.perform_fresh, ha]
        rfl
      rw [hpush] at hj'
      rw [hf]
      split at hj'
      · rcases List.mem_append.mp hj' with hj' | hj'
        · exact Nat.lt_succ_of_lt (h.below w j' hj')
        · obtain rfl := List.mem_singleton.mp hj'
          exact hg ▸ Nat.lt_succ_self _
      · exact Nat.lt_succ_of_lt (h.below w j' hj')
    · rw [hpush]
      split
      · refine List.nodup_append'.mpr ⟨h.nodup w, by simp, ?_⟩
        simpa using hnew w
      · exact h.nodup w
    · rw [hpush] at h1 h2
      by_cases hj : j' = j
      · subst hj
        have h1' : v' = v := by
          by_contra hne
          exact hnew v' (by simpa [hne] using h1)
        have h2' : w' = v := by
          by_contra hne
          exact hnew w' (by simpa [hne] using h2)
        rw [h1', h2']
      · have h1' : j' ∈ pushedOn v' tr := by
          split at h1 <;> simpa [hj] using h1
        have h2' : j' ∈ pushedOn w' tr := by
          split at h2 <;> simpa [hj] using h2
        exact h.apart h1' h2'
  · have hsame (w : Fin n) : pushedOn w (tr ++ [(t, mv.action)]) = pushedOn w tr := by
      rw [pushedOn_snoc]
      cases ha : mv.action <;> simp
      exact absurd ⟨_, _, _, ha⟩ hp
    refine ⟨fun w j hj => ?_, fun w => ?_, fun {v w j} h1 h2 => ?_⟩
    · exact (h.below w j (hsame w ▸ hj)).trans_le hfresh
    · exact hsame w ▸ h.nodup w
    · exact h.apart (hsame v ▸ h1) (hsame w ▸ h2)

theorem numbered (h : (pool T n).Run ok tr s) : Numbered tr s := by
  refine pool_invariant (J := Numbered) ⟨by simp [pushedOn], by simp [pushedOn], ?_⟩ ?_ h
  · intro v w j hj
    simp [pushedOn] at hj
  · intro tr s t i mv _ hn _ hm
    exact hn.step hm

/-- The history of worker `w` and its queue, read as the life of one queue. -/
def Tracks (w : Fin n) (tr : History T n) (s : Sys T n) (F : Fifo (JobContext T)) : Prop :=
  F.pushed = pushedOn w tr ∧ F.taken = dequeuedOn w tr ∧ F.removed = cancelledOn w tr ∧
    F.queue = (s.worker w).calls

theorem Tracks.step {w : Fin n} {F : Fifo (JobContext T)} {t : Tid n} {i : Choice T n}
    {mv : Move T n} (h : Tracks w tr s F) (hm : Moves s t i mv) :
    ∃ F', Tracks w (tr ++ [(t, mv.action)]) (s.apply t mv) F' := by
  obtain ⟨h1, h2, h3, h4⟩ := h
  have hg := hm.queue_guard
  simp only [Tracks, pushedOn_snoc, dequeuedOn_snoc, cancelledOn_snoc, Sys.worker, Sys.apply_mem,
    Mem.perform_calls]
  simp only [Sys.worker] at h4 hg
  cases ha : mv.action with
  | pushed v j strand =>
    by_cases hw : w = v
    · subst hw
      exact ⟨F.push j, by simp [Fifo.push, h1, h2, h3, h4]⟩
    · exact ⟨F, by simp [hw, h1, h2, h3, h4]⟩
  | dequeued v j =>
    by_cases hw : w = v
    · rw [ha] at hg
      subst hw
      obtain ⟨left, hl⟩ := hg
      exact ⟨F.take j left (h4.trans hl), by simp [Fifo.take, hl, h1, h2, h3]⟩
    · exact ⟨F, by simp [hw, h1, h2, h3, h4]⟩
  | cancelled v id js =>
    by_cases hw : w = v
    · rw [ha] at hg
      subst hw
      exact ⟨F.remove (AsyncWorker.cancelPredicate id), by
        simp [Fifo.remove, AsyncWorker.removeIf, AsyncWorker.cancelPredicate, hg, h1, h2, h3, h4]⟩
    · exact ⟨F, by simp [hw, h1, h2, h3, h4]⟩
  | _ => exact ⟨F, by simp [h1, h2, h3, h4]⟩

/-- Along every run the queue of every worker loses nothing and keeps its order. -/
theorem tracked (h : (pool T n).Run ok tr s) (w : Fin n) : ∃ F, Tracks w tr s F := by
  refine pool_invariant (J := fun tr s => ∃ F, Tracks w tr s F)
    ⟨.empty, rfl, rfl, rfl, rfl⟩ ?_ h
  intro tr s t i mv _ hF _ hm
  obtain ⟨F, hF⟩ := hF
  exact hF.step hm

end ServiceLib
