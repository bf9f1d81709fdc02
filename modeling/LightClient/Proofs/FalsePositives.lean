import LightClient.FalsePositives
/-!
# When the filter is to be replaced

`history` lists the false positives that a monitor was told of, each with the answer to it. The monitor always counts
the last calls of the list, as many as its count says, and its window opened with the first of these (`Follows`). From
this follows that no replacement comes too soon.

That none comes too late is a matter of counting (`length_le_of_quiet`): among calls that lie in one stretch as long as
a window, at most one can open a new window, and before it as well as from it on there are fewer than the threshold.
-/
namespace LightClient
namespace FalsePositives

/-- A call of the monitor: when it came, and whether it asked for another filter. -/
abbrev Reply := Nat × Bool

/-- The monitor after false positives at the given times. -/
def after (m : FalsePositives) (times : List Nat) : FalsePositives := times.foldl (fun m now => (m.record now).1) m

/-- The false positives at the given times with the answers to them. -/
def history (m : FalsePositives) : List Nat → List Reply
  | [] => []
  | now :: times => (now, (m.record now).2) :: (m.record now).1.history times

/-- When the window opened into which a false positive falls. -/
def opening (m : FalsePositives) (now : Nat) : Nat := if m.covers now then m.since.getD now else now

/-- The number of a false positive in its window. -/
def rank (m : FalsePositives) (now : Nat) : Nat := if m.covers now then m.count + 1 else 1

/-- All calls lie within a window that opened with the first of them. -/
def Within (window : Nat) (span : List Reply) : Prop :=
  ∀ first ∈ span.head?, ∀ c ∈ span, first.1 ≤ c.1 ∧ c.1 ≤ first.1 + window

/-! ## One call -/

theorem covers_iff {m : FalsePositives} {now : Nat} :
    m.covers now = true ↔ ∃ start, m.since = some start ∧ now ≤ start + m.window := by
  simp only [covers, Option.any_eq_true, decide_eq_true_eq, Nat.sub_le_iff_le_add']

theorem rank_of_covered {m : FalsePositives} {now start : Nat} (hsince : m.since = some start)
    (hreach : now ≤ start + m.window) : m.rank now = m.count + 1 ∧ m.opening now = start := by
  have hcovers : m.covers now = true := covers_iff.2 ⟨start, hsince, hreach⟩
  simp [rank, opening, hcovers, hsince]

theorem rank_of_uncovered {m : FalsePositives} {now : Nat} (h : m.covers now = false) :
    m.rank now = 1 ∧ m.opening now = now := by
  simp [rank, opening, h]

theorem record_eq (m : FalsePositives) (now : Nat) :
    m.record now = if m.threshold ≤ m.rank now then (m.reset, true)
      else ({ m with count := m.rank now, since := some (m.opening now) }, false) := by
  cases hcovers : m.covers now with
  | true =>
    obtain ⟨start, hsince, hreach⟩ := covers_iff.1 hcovers
    obtain ⟨hrank, hopening⟩ := rank_of_covered hsince hreach
    rw [record, hcovers, hrank, hopening, ← hsince]
    rfl
  | false =>
    obtain ⟨hrank, hopening⟩ := rank_of_uncovered hcovers
    rw [record, hcovers, hrank, hopening]
    rfl

/-- A call that does not ask for another filter is counted. -/
theorem record_of_quiet {m : FalsePositives} {now : Nat} (h : (m.record now).2 = false) :
    m.rank now < m.threshold ∧
      (m.record now).1 = { m with count := m.rank now, since := some (m.opening now) } := by
  rw [record_eq] at h ⊢
  split at h
  · cases h
  · rename_i hbelow
    rw [if_neg hbelow]
    exact ⟨Nat.lt_of_not_le hbelow, rfl⟩

theorem settings_record (m : FalsePositives) (now : Nat) :
    (m.record now).1.threshold = m.threshold ∧ (m.record now).1.window = m.window := by
  rw [record_eq]
  split <;> exact ⟨rfl, rfl⟩

theorem count_record_lt {m : FalsePositives} (hpos : 0 < m.threshold) (now : Nat) :
    (m.record now).1.count < (m.record now).1.threshold := by
  rw [record_eq]
  split
  · exact hpos
  · rename_i hbelow
    exact Nat.lt_of_not_le hbelow

/-! ## Histories -/

theorem map_fst_history : ∀ (times : List Nat) (m : FalsePositives), (m.history times).map Prod.fst = times
  | [], _ => rfl
  | now :: times, m => by rw [history, List.map_cons, map_fst_history times]

theorem history_append : ∀ (times times' : List Nat) (m : FalsePositives),
    m.history (times ++ times') = m.history times ++ (m.after times).history times'
  | [], _, _ => rfl
  | now :: times, times', m => by
    rw [List.cons_append, history, history_append times times', history, List.cons_append]
    rfl

/-- A part of a history is a history of its own. -/
theorem eq_history_of_append {m : FalsePositives} {times : List Nat} {before span rest : List Reply}
    (h : m.history times = before ++ span ++ rest) :
    span = (m.after (before.map Prod.fst)).history (span.map Prod.fst) := by
  have htimes : times = before.map Prod.fst ++ span.map Prod.fst ++ rest.map Prod.fst := by
    rw [← map_fst_history times m, h, List.map_append, List.map_append]
  rw [htimes, history_append, history_append] at h
  have hlength (m : FalsePositives) (calls : List Reply) : (m.history (calls.map Prod.fst)).length = calls.length := by
    rw [← List.length_map (f := Prod.fst), map_fst_history, List.length_map]
  have hfront := (List.append_inj h (by simp [hlength])).1
  exact (List.append_inj hfront (hlength m before)).2.symm

theorem settings_after : ∀ (times : List Nat) (m : FalsePositives),
    (m.after times).threshold = m.threshold ∧ (m.after times).window = m.window
  | [], _ => ⟨rfl, rfl⟩
  | now :: times, m => by
    obtain ⟨hthreshold, hwindow⟩ := settings_after times (m.record now).1
    obtain ⟨hthreshold', hwindow'⟩ := settings_record m now
    exact ⟨hthreshold.trans hthreshold', hwindow.trans hwindow'⟩

/-- **The count stays below the threshold.** -/
theorem count_after_lt : ∀ (times : List Nat) {m : FalsePositives}, m.count < m.threshold →
    (m.after times).count < m.threshold
  | [], _, h => h
  | now :: times, m, h => by
    have hnext := count_record_lt (Nat.zero_lt_of_lt h) now
    have hrest := count_after_lt times hnext
    rw [(settings_record m now).1] at hrest
    exact hrest

/-! ## Not too soon -/

/-- The monitor counts the last calls of a list, which lie in the current window and asked for nothing. -/
structure Follows (m : FalsePositives) (calls : List Reply) : Prop where
  count_lt : m.count < m.threshold
  current : ∃ earlier span, calls = earlier ++ span ∧ span.length = m.count ∧ m.since = span.head?.map Prod.fst ∧
    (∀ c ∈ span, c.2 = false) ∧ Within m.window span

/-- Without an open window there is nothing to count yet. -/
theorem Follows.idle {m : FalsePositives} (hpos : 0 < m.threshold) (hcount : m.count = 0) (hsince : m.since = none)
    (calls : List Reply) : Follows m calls := by
  refine ⟨hcount ▸ hpos, calls, [], (List.append_nil calls).symm, hcount.symm, hsince, ?_, ?_⟩
  · intro c hc
    cases hc
  · intro first hfirst
    cases hfirst

/-- **The next call is the last one of its window so far.** -/
theorem Follows.joins {m : FalsePositives} {calls : List Reply} (h : Follows m calls) {now : Nat}
    (hlater : ∀ c ∈ calls, c.1 ≤ now) (answer : Bool) :
    ∃ earlier span, calls = earlier ++ span ∧ span.length + 1 = m.rank now ∧ (∀ c ∈ span, c.2 = false) ∧
      Within m.window (span ++ [(now, answer)]) ∧
      some (m.opening now) = (span ++ [(now, answer)]).head?.map Prod.fst := by
  obtain ⟨earlier, span, rfl, hlength, hsince, hquiet, hwithin⟩ := h.current
  by_cases hcovers : m.covers now = true
  · cases span with
    | nil => simp [covers, hsince] at hcovers
    | cons first rest =>
      have hstart : m.since = some first.1 := hsince
      have hreach : now ≤ first.1 + m.window := by
        rw [covers, hstart, Option.any_some, decide_eq_true_eq] at hcovers
        omega
      obtain ⟨hrank, hopening⟩ := rank_of_covered hstart hreach
      refine ⟨earlier, first :: rest, rfl, by rw [hrank, hlength], hquiet, ?_, by rw [hopening]; rfl⟩
      intro first' hfirst c hc
      cases hfirst
      rcases List.mem_append.1 hc with hc | hc
      · exact hwithin first rfl c hc
      · rw [List.mem_singleton.1 hc]
        exact ⟨hlater first (by simp), hreach⟩
  · rw [Bool.not_eq_true] at hcovers
    obtain ⟨hrank, hopening⟩ := rank_of_uncovered hcovers
    refine ⟨earlier ++ span, [], (List.append_nil _).symm, hrank.symm, ?_, ?_, by rw [hopening]; rfl⟩
    · intro c hc
      cases hc
    · intro first hfirst c hc
      cases hfirst
      rw [List.mem_singleton.1 hc]
      exact ⟨Nat.le_refl _, Nat.le_add_right _ _⟩

theorem Follows.record {m : FalsePositives} {calls : List Reply} (h : Follows m calls) {now : Nat}
    (hlater : ∀ c ∈ calls, c.1 ≤ now) : Follows (m.record now).1 (calls ++ [(now, (m.record now).2)]) := by
  obtain ⟨earlier, span, hcalls, hrank, hquiet, hwithin, hopening⟩ := h.joins hlater false
  rw [record_eq]
  split
  · exact .idle (m := m.reset) (Nat.zero_lt_of_lt h.count_lt) rfl rfl _
  · rename_i hbelow
    refine ⟨Nat.lt_of_not_le hbelow, earlier, span ++ [(now, false)], by rw [hcalls, List.append_assoc], ?_, hopening,
      ?_, hwithin⟩
    · rw [List.length_append, List.length_singleton, hrank]
    · intro c hc
      rcases List.mem_append.1 hc with hc | hc
      · exact hquiet c hc
      · rw [List.mem_singleton.1 hc]

/-- **A call that asks for another filter** is the last of as many calls in one window as the threshold says. -/
theorem Follows.asked {m : FalsePositives} {calls : List Reply} (h : Follows m calls) {now : Nat}
    (hlater : ∀ c ∈ calls, c.1 ≤ now) (hasked : (m.record now).2 = true) :
    ∃ earlier span, calls = earlier ++ span ∧ span.length + 1 = m.threshold ∧ (∀ c ∈ span, c.2 = false) ∧
      Within m.window (span ++ [(now, true)]) := by
  obtain ⟨earlier, span, hcalls, hrank, hquiet, hwithin, -⟩ := h.joins hlater true
  refine ⟨earlier, span, hcalls, ?_, hquiet, hwithin⟩
  have hreached : m.threshold ≤ m.rank now := by
    rw [record_eq] at hasked
    split at hasked
    · assumption
    · cases hasked
  have hcount : m.rank now ≤ m.count + 1 := by
    unfold rank
    split <;> omega
  have := h.count_lt
  omega

theorem Follows.after : ∀ (times : List Nat) {m : FalsePositives} {calls : List Reply}, Follows m calls →
    (calls.map Prod.fst ++ times).Pairwise (· ≤ ·) → Follows (m.after times) (calls ++ m.history times)
  | [], m, calls, h, _ => by
    rw [history, List.append_nil]
    exact h
  | now :: times, m, calls, h, hsorted => by
    have hlater : ∀ c ∈ calls, c.1 ≤ now := fun c hc =>
      (List.pairwise_append.1 hsorted).2.2 _ (List.mem_map_of_mem hc) _ List.mem_cons_self
    have hrest := Follows.after times (h.record hlater) (by simpa using hsorted)
    rw [List.append_assoc] at hrest
    exact hrest

/-- **A call of a whole run that asks for another filter**, where nothing counts before the run. -/
theorem exists_span_of_asked {m : FalsePositives} {times : List Nat} (hstart : Follows m [])
    (hsorted : times.Pairwise (· ≤ ·)) {before rest : List Reply} {now : Nat}
    (h : m.history times = before ++ (now, true) :: rest) :
    ∃ earlier span, before = earlier ++ span ∧ span.length + 1 = m.threshold ∧ (∀ c ∈ span, c.2 = false) ∧
      Within m.window (span ++ [(now, true)]) := by
  have hfront : before = m.history (before.map Prod.fst) :=
    eq_history_of_append (show m.history times = [] ++ before ++ (now, true) :: rest from h)
  have hcall : [(now, true)] = (m.after (before.map Prod.fst)).history [now] :=
    eq_history_of_append (by rw [h, List.append_assoc, List.singleton_append])
  have hasked : ((m.after (before.map Prod.fst)).record now).2 = true :=
    (congrArg Prod.snd (List.cons.inj hcall).1).symm
  rw [← map_fst_history times m, h, List.map_append, List.map_cons, List.pairwise_append] at hsorted
  have hfollows := Follows.after (before.map Prod.fst) hstart hsorted.1
  rw [List.nil_append, ← hfront] at hfollows
  have hlater : ∀ c ∈ before, c.1 ≤ now := fun c hc => hsorted.2.2 _ (List.mem_map_of_mem hc) _ List.mem_cons_self
  obtain ⟨hthreshold, hwindow⟩ := settings_after (before.map Prod.fst) m
  rw [← hthreshold, ← hwindow]
  exact hfollows.asked hlater hasked

/-! ## Not too late -/

/-- Calls in a window that is open already, none of which asks for another filter, are not enough for the threshold. -/
theorem length_lt_of_open : ∀ (times : List Nat) {m : FalsePositives} {start : Nat}, m.since = some start →
    m.count < m.threshold → (∀ now ∈ times, now ≤ start + m.window) → (∀ c ∈ m.history times, c.2 = false) →
    m.count + times.length < m.threshold
  | [], _, _, _, hcount, _, _ => hcount
  | now :: times, m, start, hsince, _, hreach, hquiet => by
    obtain ⟨hrank, hopening⟩ := rank_of_covered hsince (hreach now List.mem_cons_self)
    obtain ⟨hbelow, hnext⟩ := record_of_quiet (hquiet _ List.mem_cons_self)
    have hsince' : (m.record now).1.since = some start := by rw [hnext, hopening]
    have hrest := length_lt_of_open times hsince' (by rw [hnext]; exact hbelow)
      (fun now' hmem => by rw [hnext]; exact hreach now' (List.mem_cons_of_mem _ hmem))
      (fun c hc => hquiet c (List.mem_cons_of_mem _ hc))
    rw [hnext] at hrest
    simp only [hrank] at hrest
    rw [List.length_cons]
    omega

/-- **Calls in a stretch as long as a window**, none of which asks for another filter: the first of them may still
count for an older window, and then they may fill the next one, either up to one call short of the threshold. -/
theorem length_le_of_quiet : ∀ (times : List Nat) {m : FalsePositives} {first : Nat}, m.count < m.threshold →
    (∀ now ∈ times, first ≤ now ∧ now ≤ first + m.window) → (∀ c ∈ m.history times, c.2 = false) →
    m.count + times.length ≤ 2 * (m.threshold - 1)
  | [], m, _, hcount, _, _ => by
    rw [List.length_nil]
    omega
  | now :: times, m, first, hcount, hstretch, hquiet => by
    obtain ⟨hbelow, hnext⟩ := record_of_quiet (hquiet _ List.mem_cons_self)
    have hquiet' : ∀ c ∈ (m.record now).1.history times, c.2 = false := fun c hc => hquiet c (List.mem_cons_of_mem _ hc)
    rw [hnext] at hquiet'
    cases hcovers : m.covers now with
    | true =>
      have hrank : m.rank now = m.count + 1 := by rw [rank, hcovers, if_pos rfl]
      have hrest := length_le_of_quiet times (m := { m with count := m.rank now, since := some (m.opening now) }) hbelow
        (fun now' hmem => hstretch now' (List.mem_cons_of_mem _ hmem)) hquiet'
      simp only [hrank] at hrest
      rw [List.length_cons]
      omega
    | false =>
      obtain ⟨hrank, hopening⟩ := rank_of_uncovered hcovers
      obtain ⟨hfirst, -⟩ := hstretch now List.mem_cons_self
      have hreach : ∀ now' ∈ times, now' ≤ now + m.window := fun now' hmem => by
        have := (hstretch now' (List.mem_cons_of_mem _ hmem)).2
        omega
      have hsince : ({ m with count := m.rank now, since := some (m.opening now) } : FalsePositives).since = some now :=
        congrArg some hopening
      have hrest := length_lt_of_open times hsince hbelow hreach hquiet'
      simp only [hrank] at hrest
      rw [List.length_cons]
      omega

/-- **Of enough calls within a window, one asks for another filter.** -/
theorem exists_asked {m : FalsePositives} (hcount : m.count < m.threshold) {span : List Reply}
    (hspan : span = m.history (span.map Prod.fst)) (hwithin : Within m.window span)
    (hlength : 2 * (m.threshold - 1) < span.length) : ∃ c ∈ span, c.2 = true := by
  cases hany : span.any Prod.snd with
  | true => exact List.any_eq_true.1 hany
  | false =>
    exfalso
    cases hcalls : span with
    | nil =>
      rw [hcalls] at hlength
      exact Nat.not_lt_zero _ hlength
    | cons first rest =>
      have hquiet : ∀ c ∈ m.history (span.map Prod.fst), c.2 = false := fun c hc => by
        rw [← hspan] at hc
        simpa using List.any_eq_false.1 hany c hc
      have hstretch : ∀ now ∈ span.map Prod.fst, first.1 ≤ now ∧ now ≤ first.1 + m.window := fun now hmem => by
        obtain ⟨c, hc, rfl⟩ := List.mem_map.1 hmem
        exact hwithin first (by rw [hcalls]; rfl) c hc
      have hbound := length_le_of_quiet (span.map Prod.fst) hcount hstretch hquiet
      rw [List.length_map] at hbound
      omega

/-- Calls that come one after another lie within a window if the last one does. -/
theorem within_of_sorted {window : Nat} {span : List Reply} (hsorted : (span.map Prod.fst).Pairwise (· ≤ ·))
    (hlast : ∀ first ∈ span.head?, ∀ last ∈ span.getLast?, last.1 ≤ first.1 + window) : Within window span := by
  intro first hfirst c hc
  constructor
  · cases span with
    | nil => cases hc
    | cons d rest =>
      cases hfirst
      rcases List.mem_cons.1 hc with rfl | hc
      · exact Nat.le_refl _
      · exact (List.pairwise_cons.1 hsorted).1 _ (List.mem_map_of_mem hc)
  · rcases List.eq_nil_or_concat span with rfl | ⟨init, last, rfl⟩
    · cases hc
    · rw [List.concat_eq_append] at hfirst hc hsorted hlast
      have hreach := hlast first hfirst last (by simp)
      rw [List.map_append] at hsorted
      rcases List.mem_append.1 hc with hc | hc
      · have hle := (List.pairwise_append.1 hsorted).2.2 _ (List.mem_map_of_mem hc) last.1 (by simp)
        exact Nat.le_trans hle hreach
      · rw [List.mem_singleton.1 hc]
        exact hreach

/-- **Of enough calls in the middle of a run**, the last within a window of the first, one asks for another filter. -/
theorem exists_asked_of_sorted {m : FalsePositives} {times : List Nat} (hcount : m.count < m.threshold)
    (hsorted : times.Pairwise (· ≤ ·)) {before span rest : List Reply}
    (h : m.history times = before ++ span ++ rest) (hlength : 2 * (m.threshold - 1) < span.length)
    (hlast : ∀ first ∈ span.head?, ∀ last ∈ span.getLast?, last.1 ≤ first.1 + m.window) : ∃ c ∈ span, c.2 = true := by
  obtain ⟨hthreshold, hwindow⟩ := settings_after (before.map Prod.fst) m
  rw [← map_fst_history times m, h, List.map_append, List.map_append, List.pairwise_append,
    List.pairwise_append] at hsorted
  refine exists_asked (m := m.after (before.map Prod.fst)) ?_ (eq_history_of_append h) ?_ ?_
  · rw [hthreshold]
    exact count_after_lt _ hcount
  · rw [hwindow]
    exact within_of_sorted hsorted.1.2.1 hlast
  · rw [hthreshold]
    exact hlength

/-- **Replacements are neither spurious nor missed.** The calls come one after another in time. One that asks for
another filter is the last of just as many calls as the threshold says, all within a window of the first of them,
and none of the others asked. Of two times the threshold less one calls in a row, the last within a window of the
first, one asks. The count never reaches the threshold. -/
theorem replaced_exactly {threshold : Nat} (hthreshold : 1 ≤ threshold) (window : Nat) {times : List Nat}
    (hsorted : times.Pairwise (· ≤ ·)) :
    let m := ofThreshold threshold window
    (m.history times).map Prod.fst = times ∧
    (∀ before now rest, m.history times = before ++ (now, true) :: rest →
      ∃ earlier span, before = earlier ++ span ∧ span.length + 1 = threshold ∧ (∀ c ∈ span, c.2 = false) ∧
        Within window (span ++ [(now, true)])) ∧
    (∀ before span rest, m.history times = before ++ span ++ rest → span.length = 2 * threshold - 1 →
      (∀ first ∈ span.head?, ∀ last ∈ span.getLast?, last.1 ≤ first.1 + window) → ∃ c ∈ span, c.2 = true) ∧
    ∀ n, (m.after (times.take n)).count < threshold := by
  intro m
  have hmax : m.threshold = threshold := Nat.max_eq_left hthreshold
  have hcount : m.count < m.threshold := hmax ▸ hthreshold
  refine ⟨map_fst_history times m, fun before now rest h => ?_, fun before span rest h hlength hlast => ?_, fun n => ?_⟩
  · rw [← hmax]
    exact exists_span_of_asked (.idle hcount rfl rfl []) hsorted h
  · refine exists_asked_of_sorted hcount hsorted h ?_ hlast
    rw [hmax]
    omega
  · rw [← hmax]
    exact count_after_lt _ hcount

/-- The window of the first two calls has closed when the third one comes. Of the five calls from the second on, the
fourth one asks. -/
theorem replaced_exactly_twoWindows :
    (1 ≤ 3 ∧ [0, 30, 61, 62, 63, 64].Pairwise (· ≤ ·)) ∧
      (ofThreshold 3 60).history [0, 30, 61, 62, 63, 64] =
        [(0, false)] ++ [(30, false), (61, false), (62, false), (63, true), (64, false)] ++ [] ∧
      (∃ c ∈ [(30, false), (61, false), (62, false), (63, true), (64, false)], c.2 = true) ∧
      ((ofThreshold 3 60).after [0, 30]).count < 3 := by
  have hsorted : [0, 30, 61, 62, 63, 64].Pairwise (· ≤ ·) := by decide
  have hhistory : (ofThreshold 3 60).history [0, 30, 61, 62, 63, 64] =
      [(0, false)] ++ [(30, false), (61, false), (62, false), (63, true), (64, false)] ++ [] := by decide
  obtain ⟨-, -, hasked, hcount⟩ := replaced_exactly (by decide : 1 ≤ 3) 60 hsorted
  exact ⟨⟨by decide, hsorted⟩, hhistory, hasked _ _ _ hhistory rfl (by decide), hcount 2⟩

end FalsePositives
end LightClient
