import Xv6.Logging.Commit

namespace Xv6.Logging

open Lib.Replay
open Function (update update_of_ne update_self)

def InLog (start size b : ℕ) : Prop := start ≤ b ∧ b < start + size

instance (start size b : ℕ) : Decidable (InLog start size b) := inferInstanceAs (Decidable (_ ∧ _))

def entries (start : ℕ) (d : ℕ → Block) : List (ℕ × Block) :=
  (readEntries (d start)).mapIdx (fun i b => (b, d (start + i + 1)))

structure Recoverable (start size : ℕ) (d d₀ : ℕ → Block) (es : List (ℕ × Block)) : Prop where
  nodup : (readEntries (d start)).Nodup
  home : ∀ b ∈ readEntries (d start), ¬ InLog start size b
  fits : (readEntries (d start)).length + 1 ≤ size ∧ (readEntries (d start)).length ≤ logSize
  view : ∀ b, ¬ InLog start size b → replay (entries start d) d b = replay es d₀ b

def Installed (start : ℕ) (d : ℕ → Block) (k : ℕ) : Prop :=
  ∀ i b, i < k → (readEntries (d start))[i]? = some b → d b = d (start + i + 1)

def Copied (start : ℕ) (d : ℕ → Block) (block : List ℕ) (logged : ℕ → Block) (k : ℕ) : Prop :=
  ∀ i b, i < k → block[i]? = some b → d (start + i + 1) = logged b

variable {start size k b : ℕ} {d d' d₀ : ℕ → Block} {es : List (ℕ × Block)} {block : List ℕ}
  {logged : ℕ → Block}

theorem entries_keys : (entries start d).map Prod.fst = readEntries (d start) := by
  apply List.ext_getElem (by simp [entries])
  intro i hi hi'
  simp [entries]

theorem entries_of_nil (h : readEntries (d start) = []) : entries start d = [] := by
  rw [entries, h, List.mapIdx_nil]

theorem entries_congr (hs : d' start = d start)
    (h : ∀ i < (readEntries (d start)).length, d' (start + i + 1) = d (start + i + 1)) :
    entries start d' = entries start d := by
  unfold entries
  rw [hs]
  apply List.ext_getElem (by simp)
  intro i hi hi'
  simp only [List.length_mapIdx] at hi
  simp [h i hi]

theorem entries_of_copied (hr : readEntries (d' start) = block)
    (hd : ∀ i < block.length, d' (start + i + 1) = d (start + i + 1))
    (hc : Copied start d block logged block.length) :
    entries start d' = block.map (fun b => (b, logged b)) := by
  unfold entries
  rw [hr]
  apply List.ext_getElem (by simp)
  intro i hi hi'
  simp only [List.length_mapIdx] at hi
  simp [hd i hi, hc i block[i] hi (List.getElem?_eq_getElem hi)]

theorem Copied.write (h : Copied start d block logged k) {v : Block} (hk : block[k]? = some b)
    (hv : v = logged b) :
    Copied start (update d (start + k + 1) v) block logged (k + 1) := by
  intro i x hi hx
  by_cases hik : i = k
  · subst hik
    rw [hk] at hx
    rw [update_self, hv, Option.some.inj hx]
  · rw [update_of_ne (by omega)]
    exact h i x (by omega) hx

namespace Recoverable

theorem of_nil (h : readEntries (d start) = []) (hs : 0 < size)
    (hv : ∀ b, ¬ InLog start size b → d b = replay es d₀ b) : Recoverable start size d d₀ es := by
  refine ⟨by simp [h], by simp [h], by rw [h]; simp; omega, fun b hb => ?_⟩
  rw [entries_of_nil h, replay_nil]
  exact hv b hb

theorem disk_eq (h : Recoverable start size d d₀ es) (hr : readEntries (d start) = []) (b : ℕ)
    (hb : ¬ InLog start size b) : d b = replay es d₀ b := by
  rw [← h.view b hb, entries_of_nil hr, replay_nil]

theorem writeLog (h : Recoverable start size d d₀ es) (hr : readEntries (d start) = [])
    (hk : k + 1 < size) (v : Block) :
    Recoverable start size (update d (start + k + 1) v) d₀ es := by
  apply of_nil
  · rw [update_of_ne (by omega), hr]
  · omega
  · intro b hb
    rw [update_of_ne, h.disk_eq hr b hb]
    rintro rfl
    exact hb ⟨by omega, by omega⟩

theorem writeHead (h : Recoverable start size d d₀ es) (hr : readEntries (d start) = [])
    (hc : Copied start d block logged block.length) (hn : block.Nodup)
    (hb : ∀ b ∈ block, ¬ InLog start size b) (hf : block.length + 1 ≤ size ∧ block.length ≤ logSize)
    {v : Block} (hv : readEntries v = block) :
    Recoverable start size (update d start v) d₀
      (es ++ block.map (fun b => (b, logged b))) := by
  have he : readEntries (update d start v start) = block := by rw [update_self, hv]
  refine ⟨by rwa [he], by rwa [he], by rwa [he], fun b hb => ?_⟩
  rw [entries_of_copied he (fun i _ => update_of_ne (by omega) _ _) hc, replay_append]
  apply replay_congr
  right
  rw [update_of_ne, h.disk_eq hr b hb]
  rintro rfl
  exact hb ⟨le_refl _, by omega⟩

theorem not_mem_area (h : Recoverable start size d d₀ es) (hb : b ∈ readEntries (d start)) :
    start ≠ b ∧ ∀ i < (readEntries (d start)).length, start + i + 1 ≠ b := by
  have hf := h.fits.1
  constructor
  · rintro rfl
    exact h.home _ hb ⟨le_refl _, by omega⟩
  · rintro i hi rfl
    exact h.home _ hb ⟨by omega, by omega⟩

theorem entries_update (h : Recoverable start size d d₀ es) (hb : b ∈ readEntries (d start))
    (v : Block) : entries start (update d b v) = entries start d :=
  entries_congr (update_of_ne (h.not_mem_area hb).1 _ _)
    (fun i hi => update_of_ne ((h.not_mem_area hb).2 i hi) _ _)

theorem install (h : Recoverable start size d d₀ es) (hb : b ∈ readEntries (d start)) (v : Block) :
    Recoverable start size (update d b v) d₀ es := by
  have hs : update d b v start = d start := update_of_ne (h.not_mem_area hb).1 _ _
  refine ⟨by rw [hs]; exact h.nodup, by rw [hs]; exact h.home, by rw [hs]; exact h.fits, fun x hx => ?_⟩
  rw [h.entries_update hb, replay_update (by rwa [entries_keys])]
  exact h.view x hx

theorem installed_succ (h : Recoverable start size d d₀ es) (hi : Installed start d k)
    (hb : (readEntries (d start))[k]? = some b) :
    Installed start (update d b (d (start + k + 1))) (k + 1) := by
  have hm := List.mem_of_getElem? hb
  have hk := (List.getElem?_eq_some_iff.mp hb).1
  obtain ⟨hs, ha⟩ := h.not_mem_area hm
  intro i x hlt hx
  rw [update_of_ne hs] at hx
  have hil := (List.getElem?_eq_some_iff.mp hx).1
  rw [update_of_ne (ha i hil)]
  by_cases hik : i = k
  · subst hik
    rw [hb] at hx
    rw [← Option.some.inj hx, update_self]
  · have hne : x ≠ b := by
      rintro rfl
      exact hik (h.nodup.getElem_inj_iff.mp
        ((List.getElem?_eq_some_iff.mp hx).2.trans (List.getElem?_eq_some_iff.mp hb).2.symm))
    rw [update_of_ne hne]
    exact hi i x (by omega) hx

theorem clear (h : Recoverable start size d d₀ es)
    (hi : Installed start d (readEntries (d start)).length) {v : Block} (hv : readEntries v = []) :
    Recoverable start size (update d start v) d₀ es := by
  have hall : ∀ e ∈ entries start d, d e.1 = e.2 := by
    intro e he
    obtain ⟨i, hlt, rfl⟩ := List.getElem_of_mem he
    simp only [entries, List.length_mapIdx] at hlt
    simp only [entries, List.getElem_mapIdx]
    exact hi i _ hlt (List.getElem?_eq_getElem hlt)
  have hf := h.fits.1
  apply of_nil
  · rw [update_self, hv]
  · omega
  · intro b hb
    rw [update_of_ne, ← h.view b hb, replay_of_installed hall]
    rintro rfl
    exact hb ⟨le_refl _, by omega⟩

end Recoverable

end Xv6.Logging
