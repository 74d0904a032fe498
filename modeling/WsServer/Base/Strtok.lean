import Mathlib.Data.List.Basic

/-! The C tokenizer `strtok_r` over one delimiter, and the list of the tokens that
calling it until `NULL` yields. -/
namespace Strtok
variable {χ : Type} [DecidableEq χ]

/-- One call of `strtok_r`: skip delimiters, take up to the next one, and leave the
save pointer behind it. -/
def strtok (delim : χ) (s : List χ) : Option (List χ × List χ) :=
  match s.dropWhile (· == delim) with
  | [] => none
  | c :: cs => some ((c :: cs).takeWhile (· != delim), ((c :: cs).dropWhile (· != delim)).drop 1)

/-- The tokens of a text, each read behind the token before it. The accumulator
holds the token being read, in reverse. -/
def tokensFrom (delim : χ) : List χ → List χ → List (List χ)
  | acc, [] => if acc = [] then [] else [acc.reverse]
  | acc, c :: cs =>
    if c = delim then
      (if acc = [] then tokensFrom delim [] cs else acc.reverse :: tokensFrom delim [] cs)
    else tokensFrom delim (c :: acc) cs

def tokens (delim : χ) (s : List χ) : List (List χ) := tokensFrom delim [] s

theorem tokensFrom_pending (delim : χ) (acc s : List χ) (h : acc ≠ []) :
    tokensFrom delim acc s = (acc.reverse ++ s.takeWhile (· != delim)) ::
      tokens delim ((s.dropWhile (· != delim)).drop 1) := by
  induction s generalizing acc with
  | nil => simp [tokensFrom, tokens, h]
  | cons c cs ih =>
    by_cases hc : c = delim
    · simp [tokensFrom, tokens, hc, h]
    · simp [tokensFrom, hc, ih (c :: acc) (by simp)]

/-- The loop equation: `tokens` is what repeated calls of `strtok_r` return. -/
theorem tokens_eq_strtok (delim : χ) (s : List χ) :
    tokens delim s = match strtok delim s with
      | none => []
      | some (token, rest) => token :: tokens delim rest := by
  induction s with
  | nil => simp [tokens, tokensFrom, strtok]
  | cons c cs ih =>
    by_cases hc : c = delim
    · have hs : strtok delim (c :: cs) = strtok delim cs := by simp [strtok, hc]
      rw [hs, ← ih]
      simp [tokens, tokensFrom, hc]
    · have hp := tokensFrom_pending delim [c] cs (by simp)
      simpa [tokens, tokensFrom, strtok, hc] using hp

theorem tokensFrom_eq_split (delim : χ) (acc s : List χ) :
    tokensFrom delim acc s = (s.splitOnPPrepend (· == delim) acc).filter (· ≠ []) := by
  induction s generalizing acc with
  | nil => by_cases h : acc = [] <;> simp [tokensFrom, h]
  | cons c cs ih =>
    by_cases hc : c = delim
    · rw [List.splitOnPPrepend_cons_pos (by simpa using hc), ← List.splitOnPPrepend_nil_right]
      by_cases h : acc = [] <;> simp [tokensFrom, hc, h, ih]
    · rw [List.splitOnPPrepend_cons_neg (by simpa using hc), ← ih]
      simp [tokensFrom, hc]

/-- The tokens are the non-empty pieces between delimiters. -/
theorem tokens_eq_splitOn (delim : χ) (s : List χ) :
    tokens delim s = (s.splitOn delim).filter (· ≠ []) :=
  tokensFrom_eq_split delim [] s

/-- A delimiter ends a token, wherever it stands. -/
theorem tokensFrom_append (delim : χ) (acc s t : List χ) :
    tokensFrom delim acc (s ++ delim :: t) = tokensFrom delim acc s ++ tokens delim t := by
  induction s generalizing acc with
  | nil => by_cases h : acc = [] <;> simp [tokensFrom, tokens, h]
  | cons c cs ih =>
    by_cases hc : c = delim
    · by_cases h : acc = [] <;> simp [tokensFrom, hc, h, ih]
    · simp [tokensFrom, hc, ih]

theorem tokens_append (delim : χ) (s t : List χ) :
    tokens delim (s ++ delim :: t) = tokens delim s ++ tokens delim t :=
  tokensFrom_append delim [] s t

/-- A token is made of characters of the text. -/
theorem mem_of_mem_tokensFrom {delim : χ} {acc s token : List χ}
    (h : token ∈ tokensFrom delim acc s) {c : χ} (hc : c ∈ token) : c ∈ acc ∨ c ∈ s := by
  induction s generalizing acc with
  | nil =>
    unfold tokensFrom at h
    split_ifs at h
    · cases h
    · rw [List.mem_singleton.mp h] at hc
      exact Or.inl (List.mem_reverse.mp hc)
  | cons x xs ih =>
    have hbehind {y : List χ} (hy : c ∈ y ∨ c ∈ xs) (hsub : c ∈ y → c ∈ acc ∨ c = x) :
        c ∈ acc ∨ c ∈ x :: xs := by
      rcases hy with hy | hxs
      · rcases hsub hy with hacc | rfl
        · exact Or.inl hacc
        · exact Or.inr List.mem_cons_self
      · exact Or.inr (List.mem_cons_of_mem x hxs)
    unfold tokensFrom at h
    split_ifs at h
    · exact hbehind (ih h) (fun hnil => nomatch hnil)
    · rcases List.mem_cons.mp h with rfl | h
      · exact Or.inl (List.mem_reverse.mp hc)
      · exact hbehind (ih h) (fun hnil => nomatch hnil)
    · exact hbehind (ih h) (fun hmem => (List.mem_cons.mp hmem).symm)

theorem mem_of_mem_tokens {delim : χ} {s token : List χ} (h : token ∈ tokens delim s) {c : χ}
    (hc : c ∈ token) : c ∈ s :=
  (mem_of_mem_tokensFrom h hc).resolve_left List.not_mem_nil

end Strtok
