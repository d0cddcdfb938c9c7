import Xv6.Shell.Refine

namespace Xv6.Shell

def Cmd.words {α : Type} : Cmd α → List α
  | exec argv => argv
  | redir cmd file _ _ => cmd.words ++ [file]
  | pipe left right => left.words ++ right.words
  | list left right => left.words ++ right.words
  | back cmd => cmd.words

theorem Cmd.Rel.exists_of_mem {α β : Type} {R : α → β → Prop} {c : Cmd α} {d : Cmd β} {a : α} (h : Cmd.Rel R c d)
    (ha : a ∈ c.words) : ∃ b, R a b := by
  induction h with
  | exec h =>
    rw [Cmd.words] at ha
    induction h with
    | nil => cases ha
    | cons hab _ ih =>
      rcases List.mem_cons.mp ha with rfl | ha
      · exact ⟨_, hab⟩
      · exact ih ha
  | redir mode fd _ hfile ih =>
    rcases List.mem_append.mp ha with ha | ha
    · exact ih ha
    · rw [List.mem_singleton.mp ha]
      exact ⟨_, hfile⟩
  | pipe _ _ ih ih' | list _ _ ih ih' => exact (List.mem_append.mp ha).elim ih ih'
  | back _ ih => exact ih ha

variable {s : List UInt8} {sp sp' : Span} {w w' : List UInt8} {c : Cmd Span} {mem : ℕ → UInt8}

/-! ### Words and the bytes behind them -/

theorem IsWord.eq_takeWhile {q e : List UInt8} (h : IsWord q e w) : w = q.takeWhile wordByte ∧ e = q.dropWhile wordByte := by
  have hstop : e.takeWhile wordByte = [] ∧ e.dropWhile wordByte = e := by
    cases e with
    | nil => exact ⟨rfl, rfl⟩
    | cons b e =>
      rw [List.takeWhile_cons, List.dropWhile_cons, h.stop b rfl]
      exact ⟨rfl, rfl⟩
  rw [h.split, List.takeWhile_append_of_pos h.bytes, List.dropWhile_append_of_pos h.bytes, hstop.1, hstop.2]
  exact ⟨(List.append_nil w).symm, rfl⟩

theorem Span.IsWordOf.wordByte_memory (h : sp.IsWordOf s w) {d : ℕ} (hlo : sp.eq.length < d) (hhi : d ≤ sp.q.length) :
    wordByte (memory s d) = true := by
  have hlen : sp.q.length = w.length + sp.eq.length := by
    rw [h.word.split, List.length_append]
  -- the string from the byte on
  have hsuf : sp.q.drop (sp.q.length - d) <:+ s := (List.drop_suffix _ _).trans h.suffix
  have hd : (sp.q.drop (sp.q.length - d)).length = d := by
    rw [List.length_drop]
    omega
  have hmem := memory_suffix hsuf
  rw [hd] at hmem
  rw [hmem]
  have hlt : sp.q.length - d < w.length := by omega
  rw [h.word.split, List.drop_append_of_le_length (by rw [← h.word.split]; omega), ← h.word.split,
    List.drop_eq_getElem_cons hlt, List.cons_append, List.headD_cons]
  exact h.word.bytes _ (List.getElem_mem hlt)

theorem Span.IsWordOf.outside (h : sp.IsWordOf s w) (h' : sp'.IsWordOf s w') :
    sp'.eq.length ≤ sp.eq.length ∨ sp.q.length < sp'.eq.length := by
  by_contra hin
  rw [not_or, Nat.not_le, Nat.not_lt] at hin
  have hbyte := h.wordByte_memory hin.1 hin.2
  rcases h'.boundary with hz | hno
  · omega
  · rw [hno] at hbyte
    cases hbyte

theorem foldl_terminate_of_ne {argv : List Span} {d : ℕ} (h : ∀ sp ∈ argv, d ≠ sp.eq.length) :
    argv.foldl Span.terminate mem d = mem d := by
  induction argv generalizing mem with
  | nil => rfl
  | cons sp argv ih =>
    rw [List.foldl_cons, ih (fun sp' hsp' => h sp' (List.mem_cons_of_mem _ hsp'))]
    exact Function.update_of_ne (h sp List.mem_cons_self) _ _

theorem nulterminate_of_ne {d : ℕ} (h : ∀ sp ∈ c.words, d ≠ sp.eq.length) : nulterminate c mem d = mem d := by
  induction c generalizing mem with
  | exec argv => exact foldl_terminate_of_ne h
  | redir cmd file mode fd ih =>
    have hfile := h file (List.mem_append_right _ (List.mem_singleton_self _))
    rw [nulterminate, Span.terminate, Function.update_of_ne hfile]
    exact ih (fun sp hsp => h sp (List.mem_append_left _ hsp))
  | pipe left right ihl ihr | list left right ihl ihr =>
    rw [nulterminate, ihr (fun sp hsp => h sp (List.mem_append_right _ hsp))]
    exact ihl (fun sp hsp => h sp (List.mem_append_left _ hsp))
  | back cmd ih => exact ih h

/-! ### What `parsecmd` returns -/

theorem parsecmd_ok (hs : 0 ∉ s) (h : parsecmd s = .ok (c, mem)) :
    mem = nulterminate c (memory s) ∧ ∃ d, Cmd.Rel (Span.IsWordOf s) c d ∧ Derives .line (tokens s) d := by
  have hlen := length_tokens_le s
  have hfollows := (follows_parse hs (4 * s.length + 4)).1 (List.suffix_refl s)
  have haccepts := (Tokens.accepts_parse (4 * s.length + 4)).1 (tokens s) (by omega)
  rw [parsecmd] at h
  generalize parseline (4 * s.length + 4) s = x at hfollows h
  generalize Tokens.parseline (4 * s.length + 4) (tokens s) = y at hfollows haccepts
  cases hfollows with
  | error e => cases h
  | @ok c' d s' ts hc _ hts =>
    obtain ⟨vs, hvs, hd⟩ := haccepts
    change (if (peek s' []).2 ≠ [] then _ else _) = _ at h
    split_ifs at h with hpeek
    cases h
    have hnil : ts = [] := by rw [← hts, ← peek_tokens s' [], not_not.mp hpeek, tokens]
    rw [hnil, List.append_nil] at hvs
    exact ⟨rfl, d, hc, hvs ▸ hd⟩

/-- Every string of every node is the word of the input that starts there, and no terminator is in a word. -/
theorem nulterminate_words (hs : 0 ∉ s) (h : parsecmd s = .ok (c, mem)) :
    (∀ sp ∈ c.words, sp.q <:+ s ∧ sp.q.takeWhile wordByte ≠ [] ∧ sp.eq = sp.q.dropWhile wordByte ∧
      mem sp.eq.length = 0 ∧ cstring mem sp.q.length = sp.q.takeWhile wordByte) ∧
    (∀ sp ∈ c.words, ∀ sp' ∈ c.words, sp'.eq.length ≤ sp.eq.length ∨ sp.q.length < sp'.eq.length) ∧
    (∀ d, mem d ≠ memory s d → ∃ sp ∈ c.words, d = sp.eq.length) ∧
    Derives .line (tokens s) (c.strings mem) := by
  obtain ⟨rfl, d, hc, hd⟩ := parsecmd_ok hs h
  obtain ⟨hcuts, hends⟩ := cuts_nulterminate (fun _ => .inl rfl) hc
  refine ⟨?_, ?_, ?_, ?_⟩
  · intro sp hsp
    obtain ⟨w, hw, hz⟩ := hends.exists_of_mem hsp
    obtain ⟨htake, hdrop⟩ := hw.word.eq_takeWhile
    have hstring := cstring_eq hs hcuts.cut hw hz
    refine ⟨hw.suffix, ?_, hdrop, hz, ?_⟩
    · rw [← htake]
      exact hw.word.ne
    · rw [← htake]
      exact hstring
  · intro sp hsp sp' hsp'
    obtain ⟨w, hw⟩ := hc.exists_of_mem hsp
    obtain ⟨w', hw'⟩ := hc.exists_of_mem hsp'
    exact hw.outside hw'
  · intro e he
    by_contra hno
    exact he (nulterminate_of_ne (fun sp hsp heq => hno ⟨sp, hsp, heq⟩))
  · rw [strings_nulterminate hs hc]
    exact hd

theorem nulterminate_words_redir : ∃ c mem, parsecmd [97, 60, 98] = .ok (c, mem) ∧
    c.strings mem = .redir (.exec [[97]]) [98] 0 0 ∧
    ∀ sp ∈ c.words, cstring mem sp.q.length = sp.q.takeWhile wordByte := by
  have hex : ∃ c mem, parsecmd [97, 60, 98] = .ok (c, mem) ∧ c.strings mem = .redir (.exec [[97]]) [98] 0 0 := ⟨_, _, rfl, rfl⟩
  obtain ⟨c, mem, hparse, hstrings⟩ := hex
  obtain ⟨hwords, -⟩ := nulterminate_words (by decide) hparse
  exact ⟨c, mem, hparse, hstrings, fun sp hsp => (hwords sp hsp).2.2.2.2⟩

end Xv6.Shell
