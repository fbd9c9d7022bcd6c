/-
  CandidateSearch/Proofs/Search/Limits.lean
  =========================================
  **A limit only cuts the stream.**

  A stream with a limit and one without it are pulled side by side.  As long as the limit
  is not reached both search from the same place, so that they give the same items; a
  solution takes one off the limit, and nothing else does:

      no limit     s₁  s₂  s₃  s₄  fault  done  …
      limit 2      s₁  s₂  done  done  done  …
      limit 5      s₁  s₂  s₃  s₄  fault  done  …

  A run collects what its stream gives (`collect_eq`), so what a run with a limit collects
  can be read off the stream without one.  How much room there is for choice points at
  the start makes no difference.
-/
import CandidateSearch.Proofs.Search.Trace

namespace CandidateSearch.Search

/-! ### Room for choice points -/

@[simp] theorem Machine.reserve_eq {κ : Type} (m : Machine κ) (capacity : Nat) :
    m.reserve capacity = m := by simp [Machine.reserve]

theorem Stream.startWith_eq (p : Plan.Program) (b : Bindings) (options : RunOptions) :
    Stream.startWith p b options = Stream.start p b options.maxSolutions := by
  rw [Stream.startWith]
  cases Stream.start p b options.maxSolutions with
  | error f => rfl
  | ok stream => simp [bind, Except.bind, pure, Except.pure]

/-! ### Items -/

namespace Item

/-- What an item takes off the limit. -/
def cost : Item → Nat
  | .solution _ => 1
  | _ => 0

/-- After such an item there is nothing more. -/
def isLast : Item → Bool
  | .done => true
  | .fault _ => true
  | _ => false

/-- After the end or a fault there is nothing but the end. -/
def EndsOnce (items : List Item) : Prop :=
  items.Pairwise fun earlier later => earlier.isLast = true → later = .done

/-- What is left of the items of a stream if it may give only so many solutions. -/
def cutAfter : Nat → List Item → List Item
  | _, [] => []
  | 0, _ :: rest => .done :: cutAfter 0 rest
  | k + 1, item :: rest => item :: cutAfter (k + 1 - item.cost) rest

/-- What a run makes of the items: the solutions up to the first item that is none. -/
def collected : List Item → Except Fault (List Solution)
  | .solution s :: rest => (collected rest).map (s :: ·)
  | .fault f :: _ => .error f
  | _ => .ok []

theorem collected_append (sols : List Solution) (rest : List Item) :
    collected (sols.map .solution ++ rest) = (collected rest).map (sols ++ ·) := by
  induction sols with
  | nil => cases h : collected rest <;> simp [h, Except.map]
  | cons s sols ih =>
    simp only [List.map_cons, List.cons_append, collected, ih]
    cases collected rest <;> rfl

theorem collected_cutAfter_zero (items : List Item) : collected (cutAfter 0 items) = .ok [] := by
  cases items <;> rfl

/-- The solutions count against the limit, what follows them does not. -/
theorem cutAfter_append {k : Nat} {sols : List Solution} (h : sols.length ≤ k) (rest : List Item) :
    cutAfter k (sols.map .solution ++ rest) =
      sols.map .solution ++ cutAfter (k - sols.length) rest := by
  induction sols generalizing k with
  | nil => simp
  | cons s sols ih =>
    obtain ⟨k, rfl⟩ := Nat.exists_eq_add_of_lt (Nat.lt_of_lt_of_le (Nat.succ_pos _) h)
    simp only [List.length_cons, Nat.zero_add] at h ⊢
    simp only [List.map_cons, List.cons_append, cutAfter, cost, Nat.add_sub_cancel,
      ih (Nat.le_of_succ_le_succ h), Nat.add_sub_add_right]

/-- Within the limit, a run makes the same of the items. -/
theorem collected_cutAfter_of_lt {k : Nat} {sols : List Solution} (h : sols.length < k)
    (last : Item) (rest : List Item) (hlast : last.isLast = true) :
    collected (cutAfter k (sols.map .solution ++ last :: rest)) =
      collected (sols.map .solution ++ [last]) := by
  obtain ⟨more, hmore⟩ := Nat.exists_eq_add_of_lt h
  have hleft : k - sols.length = more + 1 := by omega
  rw [cutAfter_append (Nat.le_of_lt h), hleft, cutAfter, collected_append, collected_append]
  cases last with
  | solution s => cases hlast
  | unfinished => cases hlast
  | done => rfl
  | fault f => rfl

/-- Where the solutions reach the limit, a run collects as many as it allows. -/
theorem collected_cutAfter_of_le {k : Nat} {sols : List Solution} (h : k ≤ sols.length)
    (rest : List Item) :
    collected (cutAfter k (sols.map .solution ++ rest)) = .ok (sols.take k) := by
  have hlength : (sols.take k).length = k := List.length_take_of_le h
  have hsplit : sols.map Item.solution ++ rest =
      (sols.take k).map .solution ++ ((sols.drop k).map .solution ++ rest) := by
    rw [← List.append_assoc, ← List.map_append, List.take_append_drop]
  rw [hsplit, cutAfter_append (Nat.le_of_eq hlength), hlength, Nat.sub_self, collected_append,
    collected_cutAfter_zero]
  simp [Except.map]

/-- A fault that a run ends with stands behind fewer solutions than the limit allows. -/
theorem exists_of_collected_cutAfter {k : Nat} {items : List Item} {f : Fault}
    (h : collected (cutAfter k items) = .error f) :
    ∃ (sols : List Solution) (rest : List Item), sols.length < k ∧
      items = sols.map .solution ++ .fault f :: rest := by
  induction items generalizing k with
  | nil => simp [cutAfter, collected] at h
  | cons item items ih =>
    cases k with
    | zero => simp [cutAfter, collected] at h
    | succ k =>
      cases item with
      | solution s =>
        simp only [cutAfter, cost, Nat.add_sub_cancel, collected] at h
        cases hrest : collected (cutAfter k items) with
        | ok sols => simp [hrest, Except.map] at h
        | error f' =>
          obtain rfl : f' = f := by simpa [hrest, Except.map] using h
          obtain ⟨sols, rest, hlength, rfl⟩ := ih hrest
          exact ⟨s :: sols, rest, by simpa using hlength, rfl⟩
      | fault f' =>
        obtain rfl : f' = f := by simpa [cutAfter, collected] using h
        exact ⟨[], items, by simp, rfl⟩
      | done => simp [cutAfter, collected] at h
      | unfinished => simp [cutAfter, collected] at h

end Item

open Item

/-! ### Pulling side by side -/

namespace Stream

variable {stream : Stream} {fuel : Nat}

def withLimit (stream : Stream) (k : Nat) : Stream := { stream with limit := some k }

theorem pull_of_isClosed (h : stream.isClosed = true) : stream.pull fuel = (.done, stream) := by
  rw [pull, if_pos h]

theorem limit_pull (h : stream.limit = none) : (stream.pull fuel).2.limit = none := by
  unfold pull
  split
  · exact h
  · cases search (exec stream.program) fuel stream.goal stream.machine <;> simp [close, h]

/-- **One pull.**  Below the limit both streams search from the same place. -/
theorem pull_withLimit (h : stream.limit = none) (k : Nat) :
    (stream.withLimit (k + 1)).pull fuel =
      ((stream.pull fuel).1, (stream.pull fuel).2.withLimit (k + 1 - (stream.pull fuel).1.cost)) := by
  have hclosed : (stream.withLimit (k + 1)).isClosed = stream.isClosed := by
    simp [isClosed, withLimit, h]
  unfold pull
  rw [hclosed]
  split
  · rfl
  · simp only [withLimit]
    cases search (exec stream.program) fuel stream.goal stream.machine <;>
      simp [close, cost, snapshot]

theorem pulls_of_isClosed (h : stream.isClosed = true) (n : Nat) :
    (stream.pulls fuel n).1 = List.replicate n .done := by
  induction n with
  | zero => rfl
  | succ n ih =>
    rw [pulls_succ, pull_of_isClosed h]
    simp [ih, List.replicate_succ]

theorem cutAfter_zero (items : List Item) : cutAfter 0 items = List.replicate items.length .done := by
  induction items with
  | nil => rfl
  | cons item items ih => simp [cutAfter, ih, List.replicate_succ]

theorem length_pulls (stream : Stream) (fuel n : Nat) : (stream.pulls fuel n).1.length = n := by
  induction n generalizing stream with
  | zero => rfl
  | succ n ih => rw [pulls_succ, List.length_cons, ih]

/-- **Any number of pulls.** -/
theorem pulls_withLimit (h : stream.limit = none) (k n : Nat) :
    ((stream.withLimit k).pulls fuel n).1 = cutAfter k (stream.pulls fuel n).1 := by
  induction n generalizing stream k with
  | zero => cases k <;> rfl
  | succ n ih =>
    cases k with
    | zero =>
      have hclosed : (stream.withLimit 0).isClosed = true := by simp [isClosed, withLimit]
      rw [pulls_of_isClosed hclosed, cutAfter_zero, length_pulls]
    | succ k =>
      rw [pulls_succ, pulls_succ, pull_withLimit h]
      simp only [cutAfter]
      rw [ih (limit_pull h)]

/-! ### After the end -/

theorem isClosed_of_isLast (h : (stream.pull fuel).1.isLast = true) :
    (stream.pull fuel).2.isClosed = true := by
  unfold pull at h ⊢
  split
  · rename_i hclosed
    exact hclosed
  · rename_i hopen
    rw [if_neg hopen] at h
    cases hsearch : search (exec stream.program) fuel stream.goal stream.machine <;>
      simp_all [isLast, close, isClosed]

/-- **Once a stream has ended, every pull finds the end.** -/
theorem endsOnce_pulls (stream : Stream) (fuel n : Nat) : EndsOnce (stream.pulls fuel n).1 := by
  induction n generalizing stream with
  | zero => exact List.Pairwise.nil
  | succ n ih =>
    rw [pulls_succ]
    refine List.Pairwise.cons (fun later hmem hlast => ?_) (ih _)
    rw [pulls_of_isClosed (isClosed_of_isLast hlast)] at hmem
    exact List.eq_of_mem_replicate hmem

/-! ### Runs -/

theorem collectOnto_eq (n : Nat) (found : List Solution) :
    stream.collectOnto fuel n found =
      (collected (stream.pulls fuel n).1).map fun sols => found.reverse ++ sols |>.reverse := by
  induction n generalizing stream found with
  | zero => simp [collectOnto, pulls, collected, Except.map]
  | succ n ih =>
    rw [collectOnto, pulls_succ]
    rcases stream.pull fuel with ⟨item, next⟩
    cases item with
    | solution s =>
      simp only [ih, collected]
      cases collected (next.pulls fuel n).1 <;> simp [Except.map]
    | fault f => rfl
    | done => simp [collected, Except.map]
    | unfinished => simp [collected, Except.map]

/-- **A run collects what its stream gives.** -/
theorem collect_eq (stream : Stream) (fuel : Nat) :
    stream.collect fuel = collected (stream.pulls fuel fuel).1 := by
  rw [collect, collectOnto_eq]
  cases collected (stream.pulls fuel fuel).1 <;> simp [Except.map]

theorem take_pulls (stream : Stream) (fuel : Nat) {m n : Nat} (h : m ≤ n) :
    (stream.pulls fuel n).1.take m = (stream.pulls fuel m).1 := by
  induction m generalizing stream n with
  | zero => rfl
  | succ m ih =>
    obtain ⟨n, rfl⟩ := Nat.exists_eq_succ_of_ne_zero (Nat.ne_of_gt (Nat.lt_of_lt_of_le m.succ_pos h))
    rw [pulls_succ, pulls_succ, List.take_succ_cons, ih _ (Nat.le_of_succ_le_succ h)]

/-- More pulls only add items at the end. -/
theorem exists_pulls_eq_append (stream : Stream) (fuel : Nat) {m n : Nat} (h : m ≤ n) :
    ∃ rest, (stream.pulls fuel n).1 = (stream.pulls fuel m).1 ++ rest :=
  ⟨(stream.pulls fuel n).1.drop m, by rw [← take_pulls stream fuel h, List.take_append_drop]⟩

theorem pulls_eq_of_append {n : Nat} {first rest : List Item}
    (h : (stream.pulls fuel n).1 = first ++ rest) : (stream.pulls fuel first.length).1 = first := by
  have hlength : first.length ≤ n := by
    have hcount := stream.length_pulls fuel n
    rw [h, List.length_append] at hcount
    omega
  rw [← take_pulls stream fuel hlength, h, List.take_left]

end Stream

/-! ### Streams and runs with a limit -/

theorem start_limit (p : Plan.Program) (b : Bindings) (k : Nat) :
    (∃ f, Stream.start p b none = .error f ∧ Stream.start p b (some k) = .error f) ∨
    ∃ whole, Stream.start p b none = .ok whole ∧ whole.limit = none ∧
      Stream.start p b (some k) = .ok (whole.withLimit k) := by
  unfold Stream.start
  cases p.entry? with
  | none => exact Or.inl ⟨_, rfl, rfl⟩
  | some entry =>
    cases hinputs : bindInputs b entry.inputs {} with
    | error f => exact Or.inl ⟨f, by simp [hinputs, bind, Except.bind], by
        simp [hinputs, bind, Except.bind]⟩
    | ok bound =>
      simp only [hinputs, bind, Except.bind, pure, Except.pure]
      exact Or.inr ⟨_, rfl, rfl, rfl⟩

/-- **Limits cut the stream and nothing else.**  A program that cannot be started cannot be
    started with a limit, for the same reason.  Of one that can, and whatever the limit and
    the room for choice points, the pulls with a limit give the items of the pulls without
    one up to the last solution that it allows, and from then on the end; either stream
    gives nothing but the end after its end or a fault.  A run with the limit collects the
    first solutions, as many as it allows or as there are, and ends with a fault exactly if
    this comes before the last solution that the limit allows. -/
theorem limit_cuts_stream (p : Plan.Program) (b : Bindings) (k capacity : Nat) :
    (∃ f, Stream.startWith p b {} = .error f ∧ Stream.startWith p b ⟨some k, capacity⟩ = .error f ∧
      ∀ fuel, runWith fuel p b ⟨some k, capacity⟩ = .error f) ∨
    ∃ whole part, Stream.startWith p b {} = .ok whole ∧
      Stream.startWith p b ⟨some k, capacity⟩ = .ok part ∧ ∀ fuel,
        (∀ n, (part.pulls fuel n).1 = cutAfter k (whole.pulls fuel n).1 ∧
          EndsOnce (whole.pulls fuel n).1 ∧ EndsOnce (part.pulls fuel n).1) ∧
        (∀ (sols : List Solution) (last : Item), sols.length < fuel →
          (whole.pulls fuel (sols.length + 1)).1 = sols.map .solution ++ [last] →
            (k ≤ sols.length ∨ last = .done →
              runWith fuel p b ⟨some k, capacity⟩ = .ok (sols.take k)) ∧
            ∀ f, sols.length < k → last = .fault f →
              runWith fuel p b ⟨some k, capacity⟩ = .error f) ∧
        ∀ f, runWith fuel p b ⟨some k, capacity⟩ = .error f →
          ∃ sols : List Solution, sols.length < k ∧
            (whole.pulls fuel (sols.length + 1)).1 = sols.map .solution ++ [.fault f] := by
  rcases start_limit p b k with ⟨f, hwhole, hpart⟩ | ⟨whole, hwhole, hlimit, hpart⟩
  · have hstart := (Stream.startWith_eq p b ⟨some k, capacity⟩).trans hpart
    refine Or.inl ⟨f, (Stream.startWith_eq p b {}).trans hwhole, hstart, fun fuel => ?_⟩
    rw [runWith, hstart]
    rfl
  have hstart := (Stream.startWith_eq p b ⟨some k, capacity⟩).trans hpart
  refine Or.inr ⟨whole, whole.withLimit k, (Stream.startWith_eq p b {}).trans hwhole, hstart,
    fun fuel => ⟨fun n => ⟨Stream.pulls_withLimit hlimit k n, Stream.endsOnce_pulls _ fuel n,
      Stream.endsOnce_pulls _ fuel n⟩, ?_⟩⟩
  have hrun : runWith fuel p b ⟨some k, capacity⟩ =
      collected (cutAfter k (whole.pulls fuel fuel).1) := by
    rw [runWith, hstart, ← Stream.pulls_withLimit hlimit, ← Stream.collect_eq]
    rfl
  rw [hrun]
  refine ⟨fun sols last hlength hpulls => ?_, fun f hfault => ?_⟩
  · -- the pulls of the run start with those that are known
    obtain ⟨rest, hrest⟩ := whole.exists_pulls_eq_append fuel (Nat.succ_le_of_lt hlength)
    rw [hrest, hpulls, List.append_assoc, List.singleton_append]
    refine ⟨fun hcase => ?_, fun f hless hlast => ?_⟩
    · rcases Nat.lt_or_ge sols.length k with hless | hge
      · obtain rfl := hcase.resolve_left (Nat.not_le.mpr hless)
        rw [collected_cutAfter_of_lt hless _ _ rfl, collected_append,
          List.take_of_length_le (Nat.le_of_lt hless)]
        simp [collected, Except.map]
      · exact collected_cutAfter_of_le hge _
    · rw [hlast, collected_cutAfter_of_lt hless _ _ rfl, collected_append]
      rfl
  · obtain ⟨sols, rest, hlength, hitems⟩ := exists_of_collected_cutAfter hfault
    have hfirst : (whole.pulls fuel fuel).1 = (sols.map .solution ++ [.fault f]) ++ rest := by
      rw [hitems, List.append_assoc, List.singleton_append]
    exact ⟨sols, hlength, by simpa using Stream.pulls_eq_of_append hfirst⟩

end CandidateSearch.Search
