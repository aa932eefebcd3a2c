import Mathlib.Data.List.Sort
import Mathlib.Data.Set.Basic
import Mathlib.Tactic.Basic

/-! # Reading a collection page by page while it changes

Rows have a number. A request returns a page: the rows below a cursor with the highest numbers, in
descending order, at most `limit` of them. The next request has the number of the last row for its
cursor. Between two requests rows come and go.

* `IsPage` : what a page is; a descending list that is cut is one (`isPage_take`).
* `readPages_desc` : what is read descends.
* `readPages_complete` : if the last page was empty, every row that was there at all requests has
  been read.
* `readPages_ends` : the requests come to an end; with `readPages_ne_failed`, with an empty page. -/

namespace UmbraDB.Lib.Paging

/-- The number is below the cursor, if there is one. -/
def Below (before : Option ℕ) (n : ℕ) : Prop := ∀ b, before = some b → n < b

/-- A page of the rows with numbers in `S`. -/
structure IsPage (limit : ℕ) (S : Set ℕ) (before : Option ℕ) (page : List ℕ) : Prop where
  desc : page.Pairwise (· > ·)
  mem : ∀ n ∈ page, n ∈ S ∧ Below before n
  length : page.length ≤ limit
  /-- What is left out is below a full page. -/
  rest : ∀ n ∈ S, Below before n → n ∉ page → page.length = limit ∧ ∀ m ∈ page, n < m

/-- The first rows of a descending list. -/
theorem isPage_take {limit : ℕ} {S : Set ℕ} {before : Option ℕ} {rows : List ℕ}
    (hdesc : rows.Pairwise (· > ·)) (hmem : ∀ n, n ∈ rows ↔ n ∈ S ∧ Below before n) :
    IsPage limit S before (rows.take limit) := by
  refine ⟨hdesc.take, fun n hn => (hmem n).mp (List.mem_of_mem_take hn), List.length_take_le _ _,
    fun n hS hb hn => ?_⟩
  have hdrop : n ∈ rows.drop limit := by
    have hrows := (hmem n).mpr ⟨hS, hb⟩
    rw [← List.take_append_drop limit rows, List.mem_append] at hrows
    exact hrows.resolve_left hn
  refine ⟨?_, fun m hm => ?_⟩
  · have hlen : limit < rows.length := by
      by_contra hle
      rw [List.drop_eq_nil_of_le (by omega)] at hdrop
      exact absurd hdrop List.not_mem_nil
    rw [List.length_take, Nat.min_eq_left (by omega)]
  · rw [← List.take_append_drop limit rows] at hdesc
    exact (List.pairwise_append.mp hdesc).2.2 m hm n hdrop

variable {E ε : Type*}

/-- How the reading ended. -/
inductive Stop (ε : Type*)
  /-- With an empty page, at the request with this number. -/
  | drained (i : ℕ)
  | failed (e : ε)
  /-- It did not, in the rounds that were given. -/
  | running

/-- Requests from number `i` on, each with the last number of the page before as its cursor, until a
page is empty. -/
def readPages (number : E → ℕ) (fetch : ℕ → Option ℕ → Except ε (List E)) :
    ℕ → ℕ → Option ℕ → List E × Stop ε
  | 0, _, _ => ([], .running)
  | rounds + 1, i, before =>
    match fetch i before with
    | .error e => ([], .failed e)
    | .ok page =>
      match page.getLast? with
      | none => ([], .drained i)
      | some last =>
        let rest := readPages number fetch rounds (i + 1) (some (number last))
        (page ++ rest.1, rest.2)

variable {number : E → ℕ} {fetch : ℕ → Option ℕ → Except ε (List E)}

/-- **What a round does.** -/
theorem readPages_cases (rounds i : ℕ) (before : Option ℕ) :
    (∃ e, fetch i before = .error e ∧
        readPages number fetch (rounds + 1) i before = ([], .failed e)) ∨
    (fetch i before = .ok [] ∧ readPages number fetch (rounds + 1) i before = ([], .drained i)) ∨
    ∃ page last, fetch i before = .ok page ∧ page.getLast? = some last ∧
      readPages number fetch (rounds + 1) i before =
        (page ++ (readPages number fetch rounds (i + 1) (some (number last))).1,
          (readPages number fetch rounds (i + 1) (some (number last))).2) := by
  rcases hf : fetch i before with e | page
  · exact Or.inl ⟨e, rfl, by rw [readPages, hf]⟩
  · rcases hl : page.getLast? with _ | last
    · rw [List.getLast?_eq_none_iff.mp hl] at hf ⊢
      exact Or.inr (Or.inl ⟨rfl, by rw [readPages, hf]; rfl⟩)
    · exact Or.inr (Or.inr ⟨page, last, rfl, hl, by rw [readPages, hf]; simp only [hl]⟩)

section

variable {limit : ℕ} {S : ℕ → Set ℕ}
  (hpage : ∀ i before page, fetch i before = .ok page →
    IsPage limit (S i) before (page.map number))

include hpage

/-- The last row of a page has its lowest number, and all of them are below the cursor. -/
theorem last_le {i : ℕ} {before : Option ℕ} {page : List E} {last : E}
    (h : fetch i before = .ok page) (hl : page.getLast? = some last) :
    last ∈ page ∧ Below before (number last) ∧ ∀ e ∈ page, number last ≤ number e := by
  obtain ⟨init, rfl⟩ := List.getLast?_eq_some_iff.mp hl
  have hp := hpage i before _ h
  have hlast : number last ∈ (init ++ [last]).map number := List.mem_map_of_mem (by simp)
  refine ⟨by simp, (hp.mem _ hlast).2, fun e he => ?_⟩
  have hdesc := hp.desc
  rw [List.map_append, List.pairwise_append] at hdesc
  rcases List.mem_append.mp he with he | he
  · exact (hdesc.2.2 _ (List.mem_map_of_mem he) (number last) (by simp)).le
  · rw [List.mem_singleton.mp he]

/-- **What is read is below the cursor and descends.** -/
theorem readPages_desc (rounds : ℕ) : ∀ (i : ℕ) (before : Option ℕ),
    ((readPages number fetch rounds i before).1.map number).Pairwise (· > ·) ∧
      ∀ e ∈ (readPages number fetch rounds i before).1, Below before (number e) := by
  induction rounds with
  | zero => exact fun i before => ⟨List.Pairwise.nil, fun e he => absurd he List.not_mem_nil⟩
  | succ rounds ih =>
    intro i before
    rcases @readPages_cases _ _ number fetch rounds i before with ⟨e, -, hr⟩ | ⟨-, hr⟩ |
      ⟨page, last, hf, hl, hr⟩
    · rw [hr]
      exact ⟨List.Pairwise.nil, fun e he => absurd he List.not_mem_nil⟩
    · rw [hr]
      exact ⟨List.Pairwise.nil, fun e he => absurd he List.not_mem_nil⟩
    · rw [hr]
      obtain ⟨-, hlast, hle⟩ := last_le hpage hf hl
      obtain ⟨hdesc, hbelow⟩ := ih (i + 1) (some (number last))
      have hp := hpage i before page hf
      simp only [List.map_append, List.pairwise_append, List.mem_append]
      refine ⟨⟨hp.desc, hdesc, fun a ha b hb => ?_⟩, fun e he => ?_⟩
      · obtain ⟨e, he, rfl⟩ := List.mem_map.mp ha
        obtain ⟨e', he', rfl⟩ := List.mem_map.mp hb
        exact lt_of_lt_of_le (hbelow e' he' _ rfl) (hle e he)
      · rcases he with he | he
        · exact (hp.mem _ (List.mem_map_of_mem he)).2
        · exact fun b hb => lt_trans (hbelow e he _ rfl) (hlast b hb)

/-- What is read is not above the rows that were there at the first request. -/
theorem readPages_start (rounds i : ℕ) (before : Option ℕ) :
    ∀ e ∈ (readPages number fetch rounds i before).1, ∃ n ∈ S i, number e ≤ n := by
  intro e he
  rcases rounds with _ | rounds
  · exact absurd he List.not_mem_nil
  · rcases @readPages_cases _ _ number fetch rounds i before with ⟨e', -, hr⟩ | ⟨-, hr⟩ |
      ⟨page, last, hf, hl, hr⟩
    · rw [hr] at he
      exact absurd he List.not_mem_nil
    · rw [hr] at he
      exact absurd he List.not_mem_nil
    · rw [hr] at he
      obtain ⟨hmem, -, -⟩ := last_le hpage hf hl
      have hp := hpage i before page hf
      rcases List.mem_append.mp he with he | he
      · exact ⟨number e, (hp.mem _ (List.mem_map_of_mem he)).1, le_rfl⟩
      · refine ⟨number last, (hp.mem _ (List.mem_map_of_mem hmem)).1, ?_⟩
        exact ((readPages_desc hpage rounds (i + 1) (some (number last))).2 e he _ rfl).le

/-- What is read was there at one of the requests. -/
theorem readPages_mem (rounds : ℕ) : ∀ (i : ℕ) (before : Option ℕ),
    ∀ e ∈ (readPages number fetch rounds i before).1, ∃ j, i ≤ j ∧ number e ∈ S j := by
  induction rounds with
  | zero => exact fun i before e he => absurd he List.not_mem_nil
  | succ rounds ih =>
    intro i before e he
    rcases @readPages_cases _ _ number fetch rounds i before with ⟨e, -, hr⟩ | ⟨-, hr⟩ |
      ⟨page, last, hf, hl, hr⟩
    · rw [hr] at he
      exact absurd he List.not_mem_nil
    · rw [hr] at he
      exact absurd he List.not_mem_nil
    · rw [hr] at he
      rcases List.mem_append.mp he with he | he
      · exact ⟨i, le_rfl, ((hpage i before page hf).mem _ (List.mem_map_of_mem he)).1⟩
      · obtain ⟨j, hj, hS⟩ := ih (i + 1) (some (number last)) e he
        exact ⟨j, by omega, hS⟩

/-- **What stays is read**, if the last page was empty. -/
theorem readPages_complete (hlimit : 0 < limit) {k n : ℕ} (rounds : ℕ) :
    ∀ (i : ℕ) (before : Option ℕ), (readPages number fetch rounds i before).2 = .drained k →
      Below before n → (∀ j, i ≤ j → j ≤ k → n ∈ S j) →
      i ≤ k ∧ n ∈ (readPages number fetch rounds i before).1.map number := by
  induction rounds with
  | zero => exact fun i before hd => by cases hd
  | succ rounds ih =>
    intro i before hd hb hS
    rcases @readPages_cases _ _ number fetch rounds i before with ⟨e, -, hr⟩ | ⟨hf, hr⟩ |
      ⟨page, last, hf, hl, hr⟩
    · rw [hr] at hd
      cases hd
    · -- the row would be on the empty page
      rw [hr] at hd
      cases hd
      have hrest := (hpage k before [] hf).rest n (hS k le_rfl le_rfl) hb List.not_mem_nil
      exact absurd hrest.1.symm (Nat.pos_iff_ne_zero.mp hlimit)
    · rw [hr] at hd ⊢
      obtain ⟨hmem, -, -⟩ := last_le hpage hf hl
      have hp := hpage i before page hf
      have hcont : Below (some (number last)) n → i ≤ k ∧
          n ∈ (page ++
            (readPages number fetch rounds (i + 1) (some (number last))).1).map number := by
        intro hb'
        obtain ⟨hik, hn⟩ := ih (i + 1) _ hd hb' fun j hj hjk => hS j (by omega) hjk
        rw [List.map_append]
        exact ⟨by omega, List.mem_append_right _ hn⟩
      by_cases hik : i ≤ k
      · by_cases hn : n ∈ page.map number
        · rw [List.map_append]
          exact ⟨hik, List.mem_append_left _ hn⟩
        · refine hcont fun b hb' => ?_
          cases hb'
          exact (hp.rest n (hS i le_rfl hik) hb hn).2 _ (List.mem_map_of_mem hmem)
      · -- a request cannot be drained before it is made
        have hge : ∀ (r i : ℕ) (before : Option ℕ),
            (readPages number fetch r i before).2 = .drained k → i ≤ k := by
          intro r
          induction r with
          | zero => exact fun i before h => by cases h
          | succ r ihr =>
            intro i before h
            rcases @readPages_cases _ _ number fetch r i before with ⟨e, -, hr⟩ | ⟨-, hr⟩ |
              ⟨page, last, -, -, hr⟩
            · rw [hr] at h
              cases h
            · rw [hr] at h
              cases h
              exact le_rfl
            · rw [hr] at h
              have := ihr (i + 1) _ h
              omega
        have := hge rounds (i + 1) _ hd
        omega

/-- A cursor bounds the number of rounds. -/
theorem readPages_ends_below (rounds : ℕ) : ∀ (i b : ℕ), b < rounds →
    (readPages number fetch rounds i (some b)).2 ≠ .running := by
  induction rounds with
  | zero => exact fun i b h => absurd h (Nat.not_lt_zero b)
  | succ rounds ih =>
    intro i b hb
    rcases @readPages_cases _ _ number fetch rounds i (some b) with ⟨e, -, hr⟩ | ⟨-, hr⟩ |
      ⟨page, last, hf, hl, hr⟩
    · rw [hr]
      exact fun h => by cases h
    · rw [hr]
      exact fun h => by cases h
    · rw [hr]
      obtain ⟨-, hlast, -⟩ := last_le hpage hf hl
      have hlt := hlast b rfl
      exact ih (i + 1) (number last) (by omega)

/-- **The reading ends**: the first page bounds all cursors. -/
theorem readPages_ends : ∃ bound, ∀ rounds, bound ≤ rounds →
    (readPages number fetch rounds 0 none).2 ≠ .running := by
  rcases hf : fetch 0 none with e | page
  · refine ⟨1, fun rounds hr => ?_⟩
    obtain ⟨r, rfl⟩ : ∃ r, rounds = r + 1 := ⟨rounds - 1, by omega⟩
    rw [readPages, hf]
    exact fun h => by cases h
  · rcases hl : page.getLast? with _ | last
    · refine ⟨1, fun rounds hr => ?_⟩
      obtain ⟨r, rfl⟩ : ∃ r, rounds = r + 1 := ⟨rounds - 1, by omega⟩
      rw [readPages, hf]
      simp only [hl]
      exact fun h => by cases h
    · refine ⟨number last + 2, fun rounds hr => ?_⟩
      obtain ⟨r, rfl⟩ : ∃ r, rounds = r + 1 := ⟨rounds - 1, by omega⟩
      rw [readPages, hf]
      simp only [hl]
      exact readPages_ends_below hpage r 1 (number last) (by omega)

end

/-- **No request fails**, if those with an allowed cursor do not and the rows give such cursors. -/
theorem readPages_ne_failed {P : Option ℕ → Prop}
    (hok : ∀ i before, P before →
      ∃ page, fetch i before = .ok page ∧ ∀ e ∈ page, P (some (number e)))
    (e : ε) (rounds : ℕ) : ∀ (i : ℕ) (before : Option ℕ), P before →
    (readPages number fetch rounds i before).2 ≠ .failed e := by
  induction rounds with
  | zero => exact fun i before _ h => by cases h
  | succ rounds ih =>
    intro i before hb
    obtain ⟨page, hf, hnext⟩ := hok i before hb
    rcases @readPages_cases _ _ number fetch rounds i before with ⟨e', hf', -⟩ | ⟨-, hr⟩ |
      ⟨page', last, hf', hl, hr⟩
    · rw [hf] at hf'
      cases hf'
    · rw [hr]
      exact fun h => by cases h
    · rw [hf] at hf'
      cases hf'
      rw [hr]
      exact ih (i + 1) _ (hnext last (List.mem_of_getLast? hl))

end UmbraDB.Lib.Paging
