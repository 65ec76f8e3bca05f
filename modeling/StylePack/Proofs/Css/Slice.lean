import StylePack.Css.Tree.Reader
import StylePack.Proofs.Css.Plain
import StylePack.Proofs.Text.Occurs

/-! The piece of source text that the reader keeps of a prelude, of a value or of parameters. What
stands in round brackets is passed over and comes back with the lexeme after them, so the brackets
at the end of a text are the part that can get lost (`gap_eq_nil_iff`). -/
namespace StylePack.Css.Tree
open Token

/-- A piece of text part way through its lexemes: what is kept of it, the brackets that are being
passed over, and what was passed over since the last lexeme. -/
structure Slice where
  kept : List Char := []
  skipping : List Bracket := []
  gap : List Char := []

namespace Slice

def step (s : Slice) (l : Lexeme) : Slice :=
  if s.skipping.isEmpty then ⟨s.kept ++ (s.gap ++ l.text), Reader.bracketsOf l.token, []⟩
  else ⟨s.kept, Reader.bracketsAfter s.skipping l.token, s.gap ++ l.text⟩

/-- The slice after a whole text. -/
def of (cs : List Char) : Slice := (lexemes cs).foldl step {}

variable {s : Slice} {l : Lexeme} {ls : List Lexeme} {cs : List Char}

theorem step_source (s : Slice) (l : Lexeme) :
    (s.step l).kept ++ (s.step l).gap = s.kept ++ s.gap ++ l.text := by
  unfold step
  split <;> simp

theorem foldl_source (s : Slice) (ls : List Lexeme) :
    (ls.foldl step s).kept ++ (ls.foldl step s).gap = s.kept ++ s.gap ++ Lexeme.source ls := by
  induction ls generalizing s with
  | nil => simp
  | cons l ls ih => rw [List.foldl_cons, ih, step_source, Lexeme.source_cons, List.append_assoc]

/-- A text is what is kept of it and the gap at its end. -/
theorem kept_append_gap (cs : List Char) : (of cs).kept ++ (of cs).gap = cs := by
  have h := foldl_source {} (lexemes cs)
  rwa [source_lexemes] at h

/-- What was kept before stays in front of the rest. -/
theorem foldl_prepend (before : List Char) (s : Slice) (ls : List Lexeme) :
    ls.foldl step ⟨before ++ s.kept, s.skipping, s.gap⟩ =
      ⟨before ++ (ls.foldl step s).kept, (ls.foldl step s).skipping, (ls.foldl step s).gap⟩ := by
  induction ls generalizing s with
  | nil => rfl
  | cons l ls ih =>
    have hstep : step ⟨before ++ s.kept, s.skipping, s.gap⟩ l =
        ⟨before ++ (s.step l).kept, (s.step l).skipping, (s.step l).gap⟩ := by
      unfold step
      dsimp only
      split <;> simp
    rw [List.foldl_cons, hstep, ih, List.foldl_cons]

theorem skipping_opening (s : Slice) (text : List Char) :
    (s.step ⟨.opening .round, text⟩).skipping = .round :: s.skipping := by
  unfold step
  cases s.skipping <;> rfl

theorem skipping_closing {k : Nat} (h : s.skipping = List.replicate k .round) (text : List Char) :
    (s.step ⟨.closing .round, text⟩).skipping = List.replicate (k - 1) .round := by
  unfold step
  rw [h]
  cases k <;> rfl

theorem skipping_inert {token : Token} (ht : token = .other ∨ token = .blank ∨ token = .mark)
    (s : Slice) (text : List Char) : (s.step ⟨token, text⟩).skipping = s.skipping := by
  unfold step
  rcases ht with rfl | rfl | rfl
  all_goals cases s.skipping <;> rfl

end Slice

namespace Slice
variable {s : Slice} {l : Lexeme} {ls : List Lexeme} {cs : List Char}

/-- At most the brackets that are open are passed over; an address may hide some of them. -/
theorem skipping_step (hl : Piece l) {k depth : Nat} {r : List Char}
    (hs : s.skipping = List.replicate k .round) (hk : k ≤ depth)
    (hb : balanced depth (l.text ++ r) = true) : ∃ k' depth',
      (s.step l).skipping = List.replicate k' .round ∧ k' ≤ depth' ∧ balanced depth' r = true := by
  cases hl with
  | opening hn =>
    rw [balanced_opening hn] at hb
    exact ⟨k + 1, depth + 1, by rw [skipping_opening, hs]; rfl, by omega, hb⟩
  | closing =>
    obtain ⟨hpos, hb⟩ := balanced_closing hb
    exact ⟨k - 1, depth - 1, skipping_closing hs _, by omega, hb⟩
  | inert ht hn =>
    rw [balanced_noRound hn] at hb
    exact ⟨k, depth, by rw [skipping_inert ht, hs], hk, hb⟩
  | @address name inner hn hurl hi =>
    rw [List.append_assoc, balanced_noRound hn, List.cons_append, List.append_assoc] at hb
    have hopen : balanced (depth + 1) (inner ++ ([')'] ++ r)) = true := hb
    rw [balanced_of_notMem hi] at hopen
    obtain ⟨-, hclose⟩ := balanced_closing hopen
    refine ⟨k, depth + 1 + inner.count '(' - 1, ?_, by omega, hclose⟩
    rw [skipping_inert (Or.inl rfl), hs]

theorem skipping_foldl (hls : ∀ l ∈ ls, Piece l) {k depth : Nat}
    (hs : s.skipping = List.replicate k .round) (hk : k ≤ depth)
    (hb : balanced depth (Lexeme.source ls) = true) : (ls.foldl step s).skipping = [] := by
  induction ls generalizing s k depth with
  | nil =>
    obtain rfl : depth = 0 := by simpa [balanced] using hb
    obtain rfl : k = 0 := by omega
    exact hs
  | cons l ls ih =>
    obtain ⟨k', depth', hs', hk', hb'⟩ := skipping_step (hls l List.mem_cons_self) hs hk hb
    exact ih (fun m hm => hls m (List.mem_cons_of_mem l hm)) hs' hk' hb'

/-- After balanced text no bracket is passed over any more. -/
theorem skipping_of (hp : Plain cs) (hb : balanced 0 cs = true) : (of cs).skipping = [] := by
  refine skipping_foldl (pieces hp (closes_of_balanced hb)) (k := 0) rfl (Nat.le_refl 0) ?_
  rwa [source_lexemes]

/-- Where there are no addresses, just the brackets that are open are passed over. -/
theorem skipping_exact (hls : ∀ l ∈ ls, Piece l) (hn : ∀ l ∈ ls, l.token = .other → NoRound l.text)
    {k : Nat} {r : List Char} (hs : s.skipping = List.replicate k .round)
    (hb : balanced k (Lexeme.source ls ++ r) = true) :
    ∃ k', (ls.foldl step s).skipping = List.replicate k' .round ∧ balanced k' r = true := by
  induction ls generalizing s k with
  | nil => exact ⟨k, hs, hb⟩
  | cons l ls ih =>
    have hrest := fun m hm => hls m (List.mem_cons_of_mem l hm)
    have hnrest := fun m hm => hn m (List.mem_cons_of_mem l hm)
    rw [Lexeme.source_cons, List.append_assoc] at hb
    cases hls l List.mem_cons_self with
    | opening hname =>
      rw [balanced_opening hname] at hb
      exact ih hrest hnrest (by rw [skipping_opening, hs]; rfl) hb
    | closing => exact ih hrest hnrest (skipping_closing hs _) (balanced_closing hb).2
    | inert ht hname =>
      rw [balanced_noRound hname] at hb
      exact ih hrest hnrest (by rw [skipping_inert ht, hs]) hb
    | @address name inner _ _ _ =>
      have hround := hn _ List.mem_cons_self rfl
      exact absurd rfl (hround '(' (by simp)).1

theorem gap_foldl_append (s : Slice) (ls : List Lexeme) (l : Lexeme) :
    ((ls ++ [l]).foldl step s).gap = if (ls.foldl step s).skipping.isEmpty then []
      else (ls.foldl step s).gap ++ l.text := by
  rw [List.foldl_append, List.foldl_cons, List.foldl_nil, step]
  split <;> rfl

end Slice

/-- `url(` stands in the text, in letters of either case. -/
def HoldsUrl (cs : List Char) : Prop := ['u', 'r', 'l', '('] <:+: cs.map Text.foldCase

theorem infix_of_mem_lexemes {cs : List Char} {l : Lexeme} (h : l ∈ lexemes cs) :
    l.text <:+: cs := by
  obtain ⟨before, after, hsplit⟩ := List.append_of_mem h
  have hsource := source_lexemes cs
  rw [hsplit, Lexeme.source_append, Lexeme.source_cons] at hsource
  exact ⟨Lexeme.source before, Lexeme.source after, by rw [List.append_assoc, hsource]⟩

theorem noRound_of_not_holdsUrl {cs : List Char} (hp : Plain cs) (hc : Closes cs)
    (hurl : ¬ HoldsUrl cs) : ∀ l ∈ lexemes cs, l.token = .other → NoRound l.text := by
  intro l hl ht
  cases pieces hp hc l hl with
  | opening hn => exact absurd ht nofun
  | closing => exact absurd ht nofun
  | inert _ hn => exact hn
  | @address name inner _ hname _ =>
    have hfold : name.map Text.foldCase = ['u', 'r', 'l'] := eq_of_beq hname
    refine absurd ?_ hurl
    have hinfix := (infix_of_mem_lexemes hl).map Text.foldCase
    refine List.IsInfix.trans ⟨[], inner.map Text.foldCase ++ [Text.foldCase ')'], ?_⟩ hinfix
    rw [List.map_append, hfold]
    simp [Text.foldCase]

/-- Without addresses, nothing is lost of a balanced text just if no bracket ends it. -/
theorem gap_eq_nil_iff {cs : List Char} (hp : Plain cs) (hb : balanced 0 cs = true)
    (hurl : ¬ HoldsUrl cs) : (Slice.of cs).gap = [] ↔ cs.getLast? ≠ some ')' := by
  have hc := closes_of_balanced hb
  have hpieces := pieces hp hc
  have hround := noRound_of_not_holdsUrl hp hc hurl
  have hsource := source_lexemes cs
  unfold Slice.of
  rcases List.eq_nil_or_concat (lexemes cs) with hnil | ⟨ls, l, hls⟩
  · rw [hnil] at hsource ⊢
    rw [← hsource]
    simp
  · rw [List.concat_eq_append] at hls
    rw [hls] at hpieces hround hsource ⊢
    rw [Lexeme.source_append, Lexeme.source_cons, Lexeme.source_nil, List.append_nil] at hsource
    obtain ⟨k, hk, hlast⟩ := Slice.skipping_exact (s := {})
      (fun m hm => hpieces m (List.mem_append_left _ hm))
      (fun m hm => hround m (List.mem_append_left _ hm)) (k := 0) (r := l.text) rfl
      (by rw [hsource, hb])
    rw [Slice.gap_foldl_append, ← hsource, hk]
    cases hpieces l (by simp) with
    | @opening name hn =>
      have hopen : balanced k (name ++ ['('] ++ []) = true := by rwa [List.append_nil]
      rw [balanced_opening hn] at hopen
      exact absurd hopen Bool.false_ne_true
    | closing =>
      obtain ⟨hpos, -⟩ := balanced_closing hlast
      cases k with
      | zero => omega
      | succ k => simp
    | @inert token c text ht hn =>
      have hclosed : balanced k (c :: text ++ []) = true := by rwa [List.append_nil]
      rw [balanced_noRound hn] at hclosed
      obtain rfl : k = 0 := by simpa [balanced] using hclosed
      have hne : (c :: text).getLast? ≠ some ')' := fun h => (hn ')' (List.mem_of_getLast? h)).2 rfl
      simp [List.getLast?_append, hne]
    | @address name inner _ _ _ =>
      have hr := hround _ (List.mem_append_right ls List.mem_cons_self) rfl
      exact absurd rfl (hr '(' (by simp)).1

/-- Clean text without addresses that no bracket ends. -/
structure Firm (cs : List Char) : Prop extends Clean cs where
  noUrl : ¬ HoldsUrl cs
  last : cs.getLast? ≠ some ')'

theorem Firm.kept_eq {cs : List Char} (h : Firm cs) : (Slice.of cs).kept = cs := by
  have hsplit := Slice.kept_append_gap cs
  rwa [(gap_eq_nil_iff h.plain h.balanced h.noUrl).mpr h.last, List.append_nil] at hsplit

theorem holdsUrl_append_cons {x : Char} (hx : Text.foldCase x ∉ ['u', 'r', 'l', '('])
    (cs r : List Char) : HoldsUrl (cs ++ x :: r) ↔ HoldsUrl cs ∨ HoldsUrl r := by
  unfold HoldsUrl
  rw [List.map_append, List.map_cons, Text.separated_iff (List.cons_ne_nil _ _) hx]

theorem not_holdsUrl_of_notMem {cs : List Char} (h : '(' ∉ cs) : ¬ HoldsUrl cs := by
  intro hi
  have hm : '(' ∈ cs.map Text.foldCase := hi.subset (by simp)
  obtain ⟨c, hc, hfold⟩ := List.mem_map.mp hm
  exact h (Text.eq_of_foldCase_eq hfold (by decide) ▸ hc)

theorem Firm.nil : Firm [] :=
  ⟨⟨fun _ hx => absurd hx List.not_mem_nil, rfl⟩, not_holdsUrl_of_notMem List.not_mem_nil, by simp⟩

/-- Text in front of firm text, with a character between them that no address holds. -/
theorem Firm.join {before r : List Char} {x : Char} (hbefore : Clean before)
    (hurl : ¬ HoldsUrl before) (hr : Firm r) (hp : isPlain x = true) (hx : x ≠ '(' ∧ x ≠ ')')
    (hfold : Text.foldCase x ∉ ['u', 'r', 'l', '(']) : Firm (before ++ x :: r) where
  toClean := hbefore.append (hr.toClean.cons hp hx)
  noUrl hu := by
    rcases (holdsUrl_append_cons hfold before r).mp hu with hu | hu
    · exact hurl hu
    · exact hr.noUrl hu
  last := by
    rw [List.getLast?_append, List.getLast?_cons, Option.some_or]
    cases hlast : r.getLast? with
    | none => simpa using hx.2
    | some c =>
      have hne := hr.last
      rwa [hlast] at hne

end StylePack.Css.Tree
