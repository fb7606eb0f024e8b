/-
  Resumable.Proofs.Browser.Rows — which rows are visible, and which one is selected.

  Three kinds of messages have to do with the visible rows.  A result brings rows and shows all of
  them, a key that goes to the filter or clears it computes the visible rows anew, and any other
  message leaves rows, filter and visible rows alone (`update_cases`).  So a result is the only
  message behind which the visible rows can be other than what the filter leaves: it shows all its
  rows, whatever was typed before it came.  They stay like that until the filter is worked on.

  A message that is not a result moves the selection by at most one row, or chooses the visible
  rows anew and selects the first of them (`update_turns`).  Either way the selection stays among
  the visible rows.  A result is the one message that exchanges the rows under a selection that it
  leaves alone; the first result finds no rows, and so a selection that is still at the top.

  The window follows the selection: it starts at the top unless the selection is too far down, and
  then it ends with the selected row (`top_eq`).  So it shows the selected row as soon as there is
  one (`shows_selected`).

  Main statements: `visible_follows_filter` and `selected_stays_on_screen`.
-/
import Mathlib.Data.List.Induction
import Resumable.Browser.Screen

namespace Resumable.Browser

/-- Whether a message is a result. -/
def Message.isResult : Message → Bool
  | .compiled _ => true
  | .resized _ | .key _ => false

namespace Screen

/-! ## §1. Runs. -/

/-- A browser that was told nothing yet. -/
def opened (name : String) : Screen := { name }

/-- The screen after some messages, the first one first.  A browser that was asked to end is told
    the rest all the same. -/
def after (s : Screen) (ms : List Message) : Screen := ms.foldl (fun s m => (s.update m).1) s

@[simp] theorem after_nil (s : Screen) : s.after [] = s := rfl

@[simp] theorem after_cons (s : Screen) (m : Message) (ms : List Message) :
    s.after (m :: ms) = (s.update m).1.after ms := rfl

@[simp] theorem after_append (s : Screen) (ms ms' : List Message) :
    s.after (ms ++ ms') = (s.after ms).after ms' := List.foldl_append

/-! ## §2. One message. -/

/-- Whether the visible rows are those that the filter leaves. -/
def Follows (s : Screen) : Prop := s.visible = filterRows s.rows s.filter.value

instance (s : Screen) : Decidable s.Follows :=
  inferInstanceAs (Decidable (s.visible = filterRows s.rows s.filter.value))

/-- Whether a message works on the filter: a key that goes to it, or one that clears it. -/
def refilters (s : Screen) : Message → Bool
  | .resized _ | .compiled _ => false
  | .key k => if s.filtering then k.name != "enter" && k.name != "esc" else k.name == "esc"

/-- Whether a message leaves alone what is visible: it brings no rows and does not work on the
    filter. -/
def Passes (s : Screen) (m : Message) : Prop :=
  (∀ out, m ≠ .compiled (.ok out)) ∧ s.refilters m = false

/-- The empty text keeps every row. -/
theorem filterRows_empty (rows : List Row) : filterRows rows "" = rows := rfl

theorem value_cleared (f : Field) : f.cleared.value = "" := by
  have kept : ∀ g : Field, g.settled.chars = g.chars := by
    intro g
    unfold Field.settled
    split
    · rfl
    · dsimp only
      split
      · rfl
      · split <;> rfl
  show String.ofList (Field.settled _).chars = ""
  rw [kept]

/-- A key either works on the filter, behind which the visible rows are what it leaves, or does
    nothing to rows, filter and visible rows. -/
theorem press_cases (s : Screen) (k : KeyPress) :
    (s.refilters (.key k) = true ∧ (s.press k).1.Follows) ∨
    (s.refilters (.key k) = false ∧ (s.press k).1.rows = s.rows ∧
      (s.press k).1.visible = s.visible ∧ (s.press k).1.filter = s.filter) := by
  unfold press refilters
  cases hf : s.filtering with
  | true =>
    simp only [if_true]
    unfold pressFiltering
    by_cases hdone : (k.name == "enter" || k.name == "esc") = true
    · rw [if_pos hdone]
      refine .inr ⟨?_, rfl, rfl, rfl⟩
      rw [bne, bne, ← Bool.not_or, hdone]
      rfl
    · rw [if_neg hdone]
      refine .inl ⟨?_, rfl⟩
      rw [bne, bne, ← Bool.not_or, Bool.not_eq_true']
      exact eq_false_of_ne_true hdone
  | false =>
    simp only [Bool.false_eq_true, if_false]
    by_cases hesc : k.name = "esc"
    · refine .inl ⟨beq_iff_eq.mpr hesc, ?_⟩
      rw [hesc]
      show s.rows = filterRows s.rows s.filter.cleared.value
      rw [value_cleared, filterRows_empty]
    · refine .inr ⟨beq_eq_false_iff_ne.mpr hesc, ?_⟩
      split
      -- going down is the only one of the other keys that looks at the visible rows
      case h_5 | h_6 => split <;> exact ⟨rfl, rfl, rfl⟩
      case h_9 h => exact absurd h hesc
      all_goals exact ⟨rfl, rfl, rfl⟩

/-- What a message does to rows, filter and visible rows. -/
theorem update_cases (s : Screen) (m : Message) :
    (∃ out, m = .compiled (.ok out) ∧ (s.update m).1.rows = rowsOfAll 0 out.code ∧
      (s.update m).1.visible = rowsOfAll 0 out.code ∧ (s.update m).1.filter = s.filter) ∨
    (s.refilters m = true ∧ (s.update m).1.Follows) ∨
    (s.Passes m ∧ (s.update m).1.rows = s.rows ∧ (s.update m).1.visible = s.visible ∧
      (s.update m).1.filter = s.filter) := by
  cases m with
  | resized lines =>
    refine .inr (.inr ⟨⟨nofun, rfl⟩, ?_⟩)
    by_cases hlines : framing < lines <;> simp only [update, hlines, if_true, if_false, and_self]
  | compiled result =>
    cases result with
    | error e => exact .inr (.inr ⟨⟨nofun, rfl⟩, rfl, rfl, rfl⟩)
    | ok out => exact .inl ⟨out, rfl, rfl, rfl, rfl⟩
  | key k =>
    rcases s.press_cases k with ⟨hworks, hfollows⟩ | ⟨hpasses, hsame⟩
    · exact .inr (.inl ⟨hworks, hfollows⟩)
    · exact .inr (.inr ⟨⟨nofun, hpasses⟩, hsame⟩)

theorem follows_congr {s s' : Screen} (hrows : s'.rows = s.rows)
    (hvisible : s'.visible = s.visible) (hfilter : s'.filter = s.filter) :
    s'.Follows ↔ s.Follows := by
  unfold Follows
  rw [hrows, hvisible, hfilter]

/-- A message that passes changes nothing about the visible rows. -/
theorem Passes.follows_iff {s : Screen} {m : Message} (h : s.Passes m) :
    (s.update m).1.Follows ↔ s.Follows := by
  rcases s.update_cases m with ⟨out, rfl, -⟩ | ⟨hworks, -⟩ | ⟨-, hrows, hvisible, hfilter⟩
  · exact absurd rfl (h.1 out)
  · rw [h.2] at hworks
    cases hworks
  · exact follows_congr hrows hvisible hfilter

/-- Behind a result the visible rows are what the filter leaves only if it leaves all rows. -/
theorem follows_result (s : Screen) (out : Program.Output) :
    (s.update (.compiled (.ok out))).1.Follows ↔
      filterRows (rowsOfAll 0 out.code) s.filter.value = rowsOfAll 0 out.code := by
  show rowsOfAll 0 out.code = filterRows (rowsOfAll 0 out.code) s.filter.value ↔ _
  exact eq_comm

/-! ## §3. Any number of messages. -/

/-- Whether each of some messages passes when its turn comes. -/
def PassesAll (s : Screen) : List Message → Prop
  | [] => True
  | m :: rest => s.Passes m ∧ (s.update m).1.PassesAll rest

theorem passesAll_append {s : Screen} {ms ms' : List Message} :
    s.PassesAll (ms ++ ms') ↔ s.PassesAll ms ∧ (s.after ms).PassesAll ms' := by
  induction ms generalizing s with
  | nil => exact ⟨fun h => ⟨trivial, h⟩, fun h => h.2⟩
  | cons m ms ih =>
    rw [List.cons_append, PassesAll, PassesAll, ih, after_cons, and_assoc]

/-- Messages that pass change nothing about the visible rows. -/
theorem PassesAll.follows_iff {s : Screen} {ms : List Message} (h : s.PassesAll ms) :
    (s.after ms).Follows ↔ s.Follows := by
  induction ms generalizing s with
  | nil => exact Iff.rfl
  | cons m ms ih =>
    obtain ⟨hm, hms⟩ := h
    rw [after_cons, ih hms, hm.follows_iff]

/-- Whether the last of some messages to do anything about the visible rows was a result that came
    when the filter had a text that some of its rows do not have. -/
def Overlooks (s : Screen) (ms : List Message) : Prop :=
  ∃ front out back, ms = front ++ .compiled (.ok out) :: back ∧
    filterRows (rowsOfAll 0 out.code) (s.after front).filter.value ≠ rowsOfAll 0 out.code ∧
    (s.after (front ++ [.compiled (.ok out)])).PassesAll back

theorem Overlooks.not_follows {s : Screen} {ms : List Message} (h : s.Overlooks ms) :
    ¬(s.after ms).Follows := by
  obtain ⟨front, out, back, rfl, hleaves, hback⟩ := h
  rw [List.append_cons, after_append, hback.follows_iff, after_append, after_cons, after_nil,
    follows_result]
  exact hleaves

/-- Only a result that overlooks the filter leaves other rows visible. -/
theorem overlooks_of_not_follows {s : Screen} {ms : List Message} (hs : s.Follows)
    (h : ¬(s.after ms).Follows) : s.Overlooks ms := by
  -- from the last message backwards, up to the one that showed the rows
  induction ms using List.reverseRecOn with
  | nil => exact absurd hs h
  | append_singleton ms m ih =>
    rw [after_append, after_cons, after_nil] at h
    rcases (s.after ms).update_cases m with ⟨out, rfl, -⟩ | ⟨-, hfollows⟩ | ⟨hpasses, -⟩
    · rw [follows_result] at h
      exact ⟨ms, out, [], rfl, h, trivial⟩
    · exact absurd hfollows h
    · rw [hpasses.follows_iff] at h
      obtain ⟨front, out, back, rfl, hleaves, hback⟩ := ih h
      refine ⟨front, out, back ++ [m], by simp, hleaves, passesAll_append.mpr ⟨hback, ?_⟩⟩
      rw [← after_append, List.append_assoc]
      exact ⟨hpasses, trivial⟩

/-! ## §4. The visible rows. -/

/-- After any messages, in any order, the visible rows are those that the filter leaves, unless a
    result came over a text that some of its rows do not have and neither another result nor a key
    that works on the filter came since.  In particular they are if the filter was empty whenever a
    result came. -/
theorem visible_follows_filter (name : String) (ms : List Message) :
    (¬((opened name).after ms).Follows ↔ (opened name).Overlooks ms) ∧
    ((∀ front out back, ms = front ++ .compiled (.ok out) :: back →
        ((opened name).after front).filter.value = "") →
      ((opened name).after ms).Follows) := by
  have exact_iff : ¬((opened name).after ms).Follows ↔ (opened name).Overlooks ms :=
    ⟨overlooks_of_not_follows rfl, Overlooks.not_follows⟩
  refine ⟨exact_iff, fun hempty => ?_⟩
  refine Decidable.byContradiction fun hnot => ?_
  obtain ⟨front, out, back, hms, hleaves, -⟩ := exact_iff.mp hnot
  rw [hempty front out back hms] at hleaves
  exact hleaves (filterRows_empty _)

/-- A result that came before anything was typed: of its two rows the text `z` leaves none. -/
theorem visible_follows_filter_of_typing :
    let out : Program.Output :=
      { source := "", code := [.leaf "call" "f();" false, .leaf "stat" "x = 1;" false],
        locals := [], stats := {} }
    let ms : List Message := [.compiled (.ok out), .key { name := "/", typed := ['/'] },
      .key { name := "z", typed := ['z'] }]
    let s := (opened "unit.json").after ms
    (∀ front out back, ms = front ++ .compiled (.ok out) :: back →
      ((opened "unit.json").after front).filter.value = "") ∧
    s.Follows ∧ s.rows.length = 2 ∧ s.visible = [] := by
  intro out ms s
  have hempty : ∀ front out back, ms = front ++ .compiled (.ok out) :: back →
      ((opened "unit.json").after front).filter.value = "" := by
    intro front out' back h
    rcases front with _ | ⟨m, _ | ⟨m', _ | ⟨m'', front⟩⟩⟩
    · rfl
    all_goals simp [ms] at h
  exact ⟨hempty, (visible_follows_filter "unit.json" ms).2 hempty, by decide +kernel,
    by decide +kernel⟩

/-- The code of `f();` that comes when `z` was typed: the filter leaves none of its rows, and both
    are visible. -/
theorem visible_overlooks_filter :
    let out : Program.Output :=
      { source := "f();", locals := [], stats := { temps := 1, calls := 1, instructions := 2 }
        code := [.leaf "call" "f();" false,
          .leaf "stat" "__DrutaTemp_0 = self.returnValue;" false] }
    let s := (opened "unit.json").after [.key { name := "/", typed := ['/'] },
      .key { name := "z", typed := ['z'] }, .compiled (.ok out)]
    s.failure.isNone = true ∧ s.filter.value = "z" ∧ filterRows s.rows s.filter.value = [] ∧
      s.visible.length = 2 ∧ ¬s.Follows := by
  decide +kernel

/-! ## §5. The selection, one message. -/

/-- How the rows, the visible ones and the selection change without a result. -/
inductive Turns (s s' : Screen) : Prop where
  | stays (rows : s'.rows = s.rows) (visible : s'.visible = s.visible)
      (selected : s'.selected = s.selected)
  | up (rows : s'.rows = s.rows) (visible : s'.visible = s.visible)
      (selected : s'.selected + 1 = s.selected)
  /-- The selection goes down only if a row follows. -/
  | down (rows : s'.rows = s.rows) (visible : s'.visible = s.visible)
      (selected : s'.selected = s.selected + 1) (follows : s'.selected < s.visible.length)
  /-- The visible rows are chosen anew. -/
  | filtered (needle : String) (rows : s'.rows = s.rows)
      (visible : s'.visible = filterRows s.rows needle) (selected : s'.selected = 0)

theorem press_turns (s : Screen) (k : KeyPress) : s.Turns (s.press k).1 := by
  unfold press
  cases hf : s.filtering with
  | true =>
    simp only [if_true]
    unfold pressFiltering
    split
    · exact .stays rfl rfl rfl
    · exact .filtered _ rfl rfl rfl
  | false =>
    simp only [Bool.false_eq_true, if_false]
    split
    case h_3 | h_4 =>
      by_cases htop : s.selected = 0
      · exact .stays rfl rfl (by simp [htop])
      · exact .up rfl rfl (Nat.sub_add_cancel (Nat.pos_of_ne_zero htop))
    case h_5 | h_6 =>
      split
      · next hfollows => exact .down rfl rfl rfl hfollows
      · exact .stays rfl rfl rfl
    case h_9 => exact .filtered "" rfl (filterRows_empty s.rows).symm rfl
    all_goals exact .stays rfl rfl rfl

theorem update_turns (s : Screen) {m : Message} (hm : m.isResult = false) :
    s.Turns (s.update m).1 := by
  cases m with
  | resized lines =>
    by_cases hlines : framing < lines
    · rw [update, if_pos hlines]
      exact .stays rfl rfl rfl
    · rw [update, if_neg hlines]
      exact .stays rfl rfl rfl
  | compiled result => cases hm
  | key k => exact s.press_turns k

theorem height_press (s : Screen) (k : KeyPress) : (s.press k).1.height = s.height := by
  unfold press
  cases s.filtering with
  | true =>
    simp only [if_true]
    unfold pressFiltering
    split <;> rfl
  | false =>
    simp only [Bool.false_eq_true, if_false]
    split
    case h_5 | h_6 => split <;> rfl
    all_goals rfl

/-- A terminal without lines for rows changes nothing, so there is always room for a row. -/
theorem height_pos_update {s : Screen} (h : 0 < s.height) (m : Message) :
    0 < (s.update m).1.height := by
  cases m with
  | resized lines =>
    by_cases hlines : framing < lines
    · rw [update, if_pos hlines]
      show 0 < (lines - framing).toNat
      omega
    · rwa [update, if_neg hlines]
  | compiled result => cases result <;> exact h
  | key k =>
    show 0 < (s.press k).1.height
    rwa [height_press]

/-! ## §6. The selection, any number of messages. -/

/-- Whether the selection is one of the visible rows, or the first place if there are none. -/
def InRange (s : Screen) : Prop := s.selected < max 1 s.visible.length

/-- Whether there is nothing to select yet. -/
structure Waiting (s : Screen) : Prop where
  rows : s.rows = []
  visible : s.visible = []
  selected : s.selected = 0

theorem Turns.inRange {s s' : Screen} (h : s.Turns s') (hs : s.InRange) : s'.InRange := by
  unfold InRange at hs ⊢
  cases h with
  | stays _ visible selected => rwa [visible, selected]
  | up _ visible selected => rw [visible]; omega
  | down _ visible _ follows => rw [visible]; omega
  | filtered _ _ _ selected => rw [selected]; omega

theorem Turns.waiting {s s' : Screen} (h : s.Turns s') (hs : s.Waiting) : s'.Waiting := by
  cases h with
  | stays rows visible selected =>
    exact ⟨rows.trans hs.rows, visible.trans hs.visible, selected.trans hs.selected⟩
  | up _ _ selected => rw [hs.selected] at selected; cases selected
  | down _ _ _ follows => rw [hs.visible] at follows; cases follows
  | filtered needle rows visible selected =>
    refine ⟨rows.trans hs.rows, ?_, selected⟩
    rw [visible, hs.rows, filterRows]
    split <;> rfl

/-- The first place is in range of any rows. -/
theorem inRange_of_selected_eq_zero {s : Screen} (h : s.selected = 0) : s.InRange := by
  unfold InRange
  omega

/-- Whatever rows a first result brings, the first of them is selected. -/
theorem Waiting.inRange_update {s : Screen} (h : s.Waiting) {m : Message}
    (hm : m.isResult = true) : (s.update m).1.InRange := by
  apply inRange_of_selected_eq_zero
  cases m with
  | compiled result => cases result <;> exact h.selected
  | resized lines => cases hm
  | key k => cases hm

/-- Without a result the selection stays among the visible rows. -/
theorem inRange_after_of_countP_eq_zero {s : Screen} {ms : List Message} (hs : s.InRange)
    (hms : ms.countP Message.isResult = 0) : (s.after ms).InRange := by
  induction ms generalizing s with
  | nil => exact hs
  | cons m ms ih =>
    obtain ⟨hm, hrest⟩ := List.forall_mem_cons.mp (List.countP_eq_zero.mp hms)
    exact ih ((s.update_turns (eq_false_of_ne_true hm)).inRange hs)
      (List.countP_eq_zero.mpr hrest)

/-- With one result at most the selection stays among the visible rows. -/
theorem Waiting.inRange_after {s : Screen} {ms : List Message} (hs : s.Waiting)
    (hms : ms.countP Message.isResult ≤ 1) : (s.after ms).InRange := by
  induction ms generalizing s with
  | nil => exact inRange_of_selected_eq_zero hs.selected
  | cons m ms ih =>
    cases hm : m.isResult with
    | false =>
      rw [List.countP_cons_of_neg (by simp [hm])] at hms
      exact ih ((s.update_turns hm).waiting hs) hms
    | true =>
      rw [List.countP_cons_of_pos hm] at hms
      rw [after_cons]
      exact inRange_after_of_countP_eq_zero (hs.inRange_update hm) (by omega)

theorem height_pos_after {s : Screen} (h : 0 < s.height) (ms : List Message) :
    0 < (s.after ms).height := by
  induction ms generalizing s with
  | nil => exact h
  | cons m ms ih => exact ih (height_pos_update h m)

/-! ## §7. The window. -/

/-- The window starts at the first row, or so that it ends with the selected one. -/
theorem top_eq (s : Screen) : (s.top : Int) = max 0 ((s.selected : Int) - s.height + 1) := by
  unfold top
  split <;> omega

/-- The rows in the window. -/
def window (s : Screen) : List Row := (s.visible.drop s.top).take s.height

theorem length_window (s : Screen) :
    s.window.length = min s.height (s.visible.length - s.top) := by
  unfold window
  rw [List.length_take, List.length_drop]

theorem length_shownRows (s : Screen) : s.shownRows.length = s.window.length := by
  unfold shownRows window
  rw [List.length_map, List.length_zipIdx]

/-- The selected row stands in the window. -/
theorem window_split {s : Screen} (hheight : 0 < s.height) (hs : s.InRange)
    (hvisible : s.visible ≠ []) :
    ∃ above r below, s.window = above ++ r :: below ∧ s.top + above.length = s.selected := by
  have hselected : s.selected < s.visible.length := by
    have hpos := List.length_pos_iff.mpr hvisible
    unfold InRange at hs
    omega
  have htop := s.top_eq
  have hin : s.selected - s.top < s.window.length := by
    rw [length_window]
    omega
  refine ⟨s.window.take (s.selected - s.top), s.window[s.selected - s.top],
    s.window.drop (s.selected - s.top + 1), ?_, ?_⟩
  · rw [List.getElem_cons_drop, List.take_append_drop]
  · rw [List.length_take]
    omega

/-- Rows that do not stand where the selected one does are not marked. -/
theorem marks_of_ne {rows : List Row} {start place : Nat} (k : Nat)
    (h : ∀ i, k ≤ i → i < k + rows.length → start + i ≠ place) :
    (rows.zipIdx k).map (fun (r, i) => (r, start + i == place)) = rows.map (·, false) := by
  induction rows generalizing k with
  | nil => rfl
  | cons r rows ih =>
    have hfirst : (start + k == place) = false :=
      beq_false_of_ne (h k (Nat.le_refl k) (by simp))
    have hothers : ∀ i, k + 1 ≤ i → i < k + 1 + rows.length → start + i ≠ place := by
      intro i hi hlt
      exact h i (by omega) (by rw [List.length_cons]; omega)
    rw [List.zipIdx_cons, List.map_cons, ih (k + 1) hothers]
    show (r, start + k == place) :: _ = _
    rw [hfirst]
    rfl

/-- Of the rows in the window the selected one is marked. -/
theorem shownRows_of_split {s : Screen} {above below : List Row} {r : Row}
    (h : s.window = above ++ r :: below) (hselected : s.top + above.length = s.selected) :
    s.shownRows = above.map (·, false) ++ (r, true) :: below.map (·, false) := by
  have hmark : (s.top + above.length == s.selected) = true := beq_iff_eq.mpr hselected
  show s.window.zipIdx.map _ = _
  rw [h, List.zipIdx_append, List.zipIdx_cons, List.map_append, List.map_cons,
    marks_of_ne 0 (fun i _ hi => by omega), marks_of_ne _ (fun i hi _ => by omega)]
  show _ ++ (r, s.top + (0 + above.length) == s.selected) :: _ = _
  rw [Nat.zero_add, hmark]

/-- A row as a line of its own. -/
def rowLine (isSelected : Bool) (r : Row) : String :=
  (if isSelected then "> " else "  ") ++ rowText r ++ "\n"

/-- Whether rows are drawn: there is a result, and its rows are not covered by the source. -/
def DrawsRows (s : Screen) : Prop :=
  s.failure = none ∧ s.output ≠ none ∧ s.showsSource = false

/-- The rows in the window are drawn one below the other. -/
theorem view_rows {s : Screen} (h : s.DrawsRows) (hvisible : s.visible ≠ []) :
    ∃ front back, s.view = front ++
      String.join (s.shownRows.map fun (r, isSelected) => rowLine isSelected r) ++ back := by
  obtain ⟨hfailure, houtput, hsource⟩ := h
  obtain ⟨out, hout⟩ := Option.ne_none_iff_exists'.mp houtput
  have hlines : s.rowLines =
      String.join (s.shownRows.map fun (r, isSelected) => rowLine isSelected r) := by
    rw [rowLines, if_neg (by simpa using hvisible)]
    rfl
  have hregroup (a b c d e : String) : a ++ (b ++ c ++ d ++ e) = a ++ b ++ (c ++ d ++ e) := by
    simp only [String.append_assoc]
  rw [← hlines]
  exact ⟨_, _, by rw [view, hfailure, hout, hsource]; exact hregroup _ _ _ _ _⟩

/-! ## §8. The selected row. -/

/-- Whether the selected row is on the screen: of the visible rows a stretch is shown, with the
    selected row in it as the only one that is marked, and so they are drawn. -/
def ShowsSelected (s : Screen) : Prop :=
  ∃ hidden above r below rest, s.visible = hidden ++ (above ++ r :: below) ++ rest ∧
    hidden.length = s.top ∧ hidden.length + above.length = s.selected ∧
    s.shownRows = above.map (·, false) ++ (r, true) :: below.map (·, false) ∧
    (s.DrawsRows → ∃ front back, s.view = front ++ (String.join (above.map (rowLine false)) ++
      rowLine true r ++ String.join (below.map (rowLine false))) ++ back)

theorem shows_selected {s : Screen} (hheight : 0 < s.height) (hs : s.InRange)
    (hvisible : s.visible ≠ []) : s.ShowsSelected := by
  obtain ⟨above, r, below, hwindow, hselected⟩ := window_split hheight hs hvisible
  have hshown := shownRows_of_split hwindow hselected
  have htop : (s.visible.take s.top).length = s.top := by
    rw [List.length_take]
    unfold InRange at hs
    omega
  refine ⟨s.visible.take s.top, above, r, below, (s.visible.drop s.top).drop s.height, ?_, htop,
    ?_, hshown, ?_⟩
  · rw [← hwindow, List.append_assoc, window, List.take_append_drop, List.take_append_drop]
  · rw [htop, hselected]
  · intro hdraws
    obtain ⟨front, back, hview⟩ := view_rows hdraws hvisible
    refine ⟨front, back, ?_⟩
    rw [hview, hshown]
    simp [Function.comp_def, String.append_assoc]

/-- After any messages with one result at most, in any order, the selection is one of the visible
    rows, if there are any, and at the top otherwise.  The window starts inside the visible rows,
    ends inside them and has room for a row at least, and the selected row is drawn in it. -/
theorem selected_stays_on_screen (name : String) (ms : List Message)
    (h : ms.countP Message.isResult ≤ 1) :
    let s := (opened name).after ms
    s.selected < max 1 s.visible.length ∧ 1 ≤ s.height ∧
    (s.top : Int) = max 0 ((s.selected : Int) - s.height + 1) ∧
    s.shownRows.length ≤ s.height ∧ s.top + s.shownRows.length ≤ s.visible.length ∧
    (s.visible ≠ [] → s.ShowsSelected) := by
  intro s
  have hselected : s.InRange := Waiting.inRange_after ⟨rfl, rfl, rfl⟩ h
  have hheight : 0 < s.height := height_pos_after (s := opened name) (by show 0 < 20; decide) ms
  have hstart : s.top ≤ s.visible.length := by
    have htop := s.top_eq
    unfold InRange at hselected
    omega
  refine ⟨hselected, hheight, s.top_eq, ?_, ?_, shows_selected hheight hselected⟩
  · rw [length_shownRows, length_window]
    exact Nat.min_le_left _ _
  · rw [length_shownRows, length_window]
    omega

/-- Three rows on a screen for two: going down before the result does nothing, and the third `j`
    behind it does nothing either. -/
theorem selected_stays_on_screen_of_moves :
    let out : Program.Output :=
      { source := "", locals := [], stats := {}
        code := [.leaf "call" "f();" false, .leaf "stat" "x = 1;" false, .leaf "stat" "y;" false] }
    let down : Message := .key { name := "j", typed := ['j'] }
    let ms : List Message := [down, .compiled (.ok out), .resized 10, down, down, down]
    let s := (opened "unit.json").after ms
    ms.countP Message.isResult ≤ 1 ∧ s.visible.length = 3 ∧ s.selected = 2 ∧ s.height = 2 ∧
      s.top = 1 ∧ s.top + s.shownRows.length ≤ s.visible.length ∧ s.ShowsSelected := by
  intro out down ms s
  have hone : ms.countP Message.isResult ≤ 1 := by decide +kernel
  obtain ⟨-, -, -, -, hinside, hshows⟩ := selected_stays_on_screen "unit.json" ms hone
  exact ⟨hone, by decide +kernel, by decide +kernel, by decide +kernel, by decide +kernel, hinside,
    hshows (by decide +kernel)⟩

/-- A second result may bring fewer rows than the selection is far down. -/
example :
    let result (code : List Op) : Message :=
      .compiled (.ok { source := "", locals := [], stats := {}, code })
    let s := (opened "unit.json").after [
      result [.leaf "call" "f();" false, .leaf "stat" "x = 1;" false],
      .key { name := "j", typed := ['j'] }, result [.leaf "stat" "x = 1;" false]]
    s.selected = 1 ∧ s.visible.length = 1 := by
  decide +kernel

end Screen

end Resumable.Browser
