import LightClient.Client.Polling
import LightClient.Node.Scripted
import LightClient.Proofs.Recorder
import Mathlib.Data.Nat.Find
import Mathlib.Logic.Function.Iterate

/-! Waiting for a transaction. As long as the answers decide nothing, the node is asked
again after a pause; so what comes of a wait is settled by the first answer that decides,
or else by the last one, and by the time at which the caller cancels. The questions and the
pauses are recorded while the wait goes on. -/

namespace LightClient.Client

variable {σ : Type}

/-! ## Answers -/

/-- The answer leaves the wait open: not known, not executed yet, or not there. -/
inductive Undecided : Except ClientError TransactionStatus → Prop
  | unknown : Undecided (.ok .unknown)
  | pending : Undecided (.ok .pending)
  | unreachable (fault : NetworkFault) : Undecided (.error (.network fault))

/-- The answer ends the wait with the result. -/
inductive Decides (hash : Digest) (attempts : Nat) :
    Except ClientError TransactionStatus → Except ClientError CommitResult → Prop
  | committed : Decides hash attempts (.ok .committed) (.ok (.committed hash attempts))
  | rejected (reason : String) :
    Decides hash attempts (.ok (.rejected reason)) (.ok (.rejected hash reason))
  | failed {error : ClientError} :
    (∀ fault, error ≠ .network fault) → Decides hash attempts (.error error) (.error error)

/-- The fault of the network that the answer reports. -/
def faultOf : Except ClientError TransactionStatus → Option NetworkFault
  | .error (.network fault) => some fault
  | _ => none

/-- What comes of a wait that nobody cancels, and after how many questions. The answer to
the first question is `answer 0`. -/
inductive Outcome (hash : Digest) (total : Nat)
    (answer : Nat → Except ClientError TransactionStatus) :
    Nat → Except ClientError CommitResult → Prop
  | decided {i : Nat} {result : Except ClientError CommitResult} :
    i < total → (∀ j < i, Undecided (answer j)) → Decides hash (i + 1) (answer i) result →
    Outcome hash total answer (i + 1) result
  /-- Only the last answer counts. -/
  | unreachable {fault : NetworkFault} :
    (∀ j < total, Undecided (answer j)) → answer (total - 1) = .error (.network fault) →
    Outcome hash total answer total (.error (.network fault))
  | timedOut :
    (∀ j < total, Undecided (answer j)) →
    (∀ fault, answer (total - 1) ≠ .error (.network fault)) →
    Outcome hash total answer total (.error (.commitTimeout total))

theorem faultOf_eq_some {answer : Except ClientError TransactionStatus} {fault : NetworkFault} :
    faultOf answer = some fault ↔ answer = .error (.network fault) := by
  unfold faultOf
  split
  · simp
  · rename_i hother
    simpa using hother fault

theorem settle_of_undecided {answer : Except ClientError TransactionStatus}
    (h : Undecided answer) (hash : Digest) (attempts : Nat) :
    settle hash attempts answer = .inr (faultOf answer) := by
  cases h <;> rfl

theorem settle_of_decides {hash : Digest} {attempts : Nat}
    {answer : Except ClientError TransactionStatus} {result : Except ClientError CommitResult}
    (h : Decides hash attempts answer result) : settle hash attempts answer = .inl result := by
  cases h with
  | committed => rfl
  | rejected => rfl
  | @failed error hother =>
    cases error with
    | network fault => exact absurd rfl (hother fault)
    | _ => rfl

/-- An answer decides or leaves the wait open. -/
theorem undecided_or_decides (hash : Digest) (attempts : Nat)
    (answer : Except ClientError TransactionStatus) :
    Undecided answer ∨ ∃ result, Decides hash attempts answer result := by
  cases answer with
  | ok status =>
    cases status with
    | unknown => exact Or.inl .unknown
    | pending => exact Or.inl .pending
    | committed => exact Or.inr ⟨_, .committed⟩
    | rejected reason => exact Or.inr ⟨_, .rejected reason⟩
  | error error =>
    cases error with
    | network fault => exact Or.inl (.unreachable fault)
    | _ => exact Or.inr ⟨_, .failed nofun⟩

/-- Something comes of every wait. -/
theorem exists_outcome (hash : Digest) (total : Nat)
    (answer : Nat → Except ClientError TransactionStatus) :
    ∃ polls result, Outcome hash total answer polls result := by
  classical
  by_cases hopen : ∀ j < total, Undecided (answer j)
  · by_cases hfault : ∃ fault, answer (total - 1) = .error (.network fault)
    · obtain ⟨fault, hfault⟩ := hfault
      exact ⟨_, _, .unreachable hopen hfault⟩
    · exact ⟨_, _, .timedOut hopen fun fault heq => hfault ⟨fault, heq⟩⟩
  · have hexists : ∃ j, j < total ∧ ¬ Undecided (answer j) := by
      simpa only [not_forall, exists_prop] using hopen
    -- the first answer that decides
    obtain ⟨hlt, hdecided⟩ := Nat.find_spec hexists
    obtain ⟨result, hresult⟩ :=
      (undecided_or_decides hash (Nat.find hexists + 1) _).resolve_left hdecided
    refine ⟨_, result, .decided hlt (fun j hj => ?_) hresult⟩
    by_contra hnot
    exact Nat.find_min hexists hj ⟨Nat.lt_trans hj hlt, hnot⟩

/-! ## The course of a wait -/

/-- What is done in a wait. -/
inductive Move
  | ask
  | sleep (length : Nat)
  deriving DecidableEq

namespace Wait

variable {τ υ : Type} {hash : Digest} {interval : Nat}

/-- The wait before a recorder. -/
def recorded (w : Wait τ) : Wait (Recorded Move τ) where
  ask := .recording .ask w.ask
  sleep length := .recording (.sleep length) (w.sleep length)
  proceed := .unnoted w.proceed

/-- Seen through `f` the one wait does what the other one does. -/
structure Mirrors (f : τ → υ) (w : Wait τ) (w' : Wait υ) : Prop where
  ask : Request.Mirrors f w.ask w'.ask
  sleep : ∀ length, Request.Mirrors f (w.sleep length) (w'.sleep length)
  proceed : Request.Mirrors f w.proceed w'.proceed

section
variable {f : τ → υ} {w : Wait τ} {w' : Wait υ}

theorem Mirrors.lead (h : Mirrors f w w') (interval made : Nat) :
    Request.Mirrors f (w.lead interval made) (w'.lead interval made) := by
  unfold Wait.lead
  split
  · exact h.proceed
  · exact (h.sleep interval).bind fun _ => h.proceed

theorem Mirrors.poll (h : Mirrors f w w') (left made : Nat) (last : Option NetworkFault) :
    Request.Mirrors f (w.poll interval hash left made last)
      (w'.poll interval hash left made last) := by
  induction left generalizing made last with
  | zero =>
    cases last with
    | none => exact fun _ => rfl
    | some fault => exact fun _ => rfl
  | succ left ih =>
    refine (h.lead interval made).bind fun _ => h.ask.observing.bind fun answer => ?_
    cases settle hash (made + 1) answer with
    | inl result => exact Request.mirrors_ofExcept result
    | inr last => exact ih (made + 1) last

theorem Mirrors.await (h : Mirrors f w w') (config : Config) (hash : Digest) :
    Request.Mirrors f (w.await config hash) (w'.await config hash) :=
  h.poll _ _ _

end

theorem mirrors_recorded (w : Wait τ) : Mirrors Recorded.machine w.recorded w where
  ask := Request.mirrors_recording _ _
  sleep _ := Request.mirrors_recording _ _
  proceed := Request.mirrors_unnoted _

/-- Without attempts left the last answer is reported. -/
theorem poll_of_exhausted (w : Wait τ) {made : Nat} {last : Option NetworkFault} {s : τ} :
    w.poll interval hash 0 made last s =
      (match last with
        | some fault => .error (.network fault)
        | none => .error (.commitTimeout made), s) := by
  cases last <;> rfl

end Wait

/-- What is done before an attempt. -/
def leading (interval made : Nat) : List Move := if made = 0 then [] else [.sleep interval]

/-- Questions with a pause between each two of them. -/
def rounds (interval count : Nat) : List Move :=
  (List.replicate count .ask).intersperse (.sleep interval)

theorem rounds_succ_succ (interval count : Nat) :
    rounds interval (count + 2) = .ask :: .sleep interval :: rounds interval (count + 1) := rfl

/-- Each question but the first one follows a pause. -/
theorem rounds_succ (interval count : Nat) :
    rounds interval (count + 1) = rounds interval count ++ leading interval count ++ [.ask] := by
  induction count with
  | zero => rfl
  | succ count ih =>
    cases count with
    | zero => rfl
    | succ count =>
      calc rounds interval (count + 3)
        _ = .ask :: .sleep interval :: rounds interval (count + 2) := rfl
        _ = .ask :: .sleep interval ::
            (rounds interval (count + 1) ++ leading interval (count + 1) ++ [.ask]) := by rw [ih]
        _ = rounds interval (count + 2) ++ leading interval (count + 2) ++ [.ask] := rfl

/-- There is one pause less than there are questions, and nothing else. -/
theorem count_rounds (interval count : Nat) :
    (rounds interval count).count .ask = count ∧
      (rounds interval count).count (.sleep interval) = count - 1 ∧
      (rounds interval count).length = count + (count - 1) := by
  induction count with
  | zero => exact ⟨rfl, rfl, rfl⟩
  | succ count ih =>
    cases count with
    | zero => exact ⟨rfl, rfl, rfl⟩
    | succ count =>
      obtain ⟨hasks, hsleeps, hlength⟩ := ih
      have hne : Move.sleep interval ≠ .ask := nofun
      refine ⟨?_, ?_, ?_⟩
      · rw [rounds_succ_succ, List.count_cons_self, List.count_cons_of_ne hne, hasks]
      · rw [rounds_succ_succ, List.count_cons_of_ne hne.symm, List.count_cons_self, hsleeps]
        rfl
      · rw [rounds_succ_succ, List.length_cons, List.length_cons, hlength]
        omega

variable (node : Node σ) (hash : Digest)

def move (s : Timed σ) : Move → Timed σ
  | .ask => (instantly (node.status hash) s).2
  | .sleep length => (pause length none s).2

/-- The state after the moves. -/
def moves (s : Timed σ) (course : List Move) : Timed σ := course.foldl (move node hash) s

/-- The state after the moves, with their record. -/
def recordedMoves (s : Timed σ) (course : List Move) : Recorded Move (Timed σ) :=
  ⟨moves node hash s course, course⟩

/-- The machine after some questions. -/
def asked (machine : σ) (count : Nat) : σ := (fun m => (node.status hash m).2)^[count] machine

/-- The answer to the question that follows some questions. -/
def answerAfter (machine : σ) (count : Nat) : Except ClientError TransactionStatus :=
  (node.status hash (asked node hash machine count)).1

section
variable {node hash} {s : Timed σ} {interval : Nat} {cancelAt : Option Nat}

theorem move_ask : move node hash s .ask = ⟨(node.status hash s.machine).2, s.now⟩ := rfl

theorem move_sleep (length : Nat) :
    move node hash s (.sleep length) = ⟨s.machine, s.now + length⟩ := rfl

theorem moves_concat (course : List Move) (m : Move) :
    moves node hash s (course ++ [m]) = move node hash (moves node hash s course) m := by
  rw [moves, List.foldl_append]
  rfl

theorem asked_succ (machine : σ) (count : Nat) :
    asked node hash machine (count + 1) =
      (node.status hash (asked node hash machine count)).2 :=
  Function.iterate_succ_apply' _ _ _

/-- The time that an attempt waits. -/
def delay (interval made : Nat) : Nat := if made = 0 then 0 else interval

theorem moves_append_leading (course : List Move) (made : Nat) :
    moves node hash s (course ++ leading interval made) =
      { moves node hash s course with
        now := (moves node hash s course).now + delay interval made } := by
  unfold leading delay
  split
  · rw [List.append_nil]
    rfl
  · rw [moves_concat]
    rfl

/-- The pauses add up; questions take no time. -/
theorem moves_rounds_leading (count : Nat) :
    moves node hash s (rounds interval count ++ leading interval count) =
      ⟨asked node hash s.machine count, s.now + count * interval⟩ := by
  induction count with
  | zero =>
    rw [Nat.zero_mul]
    rfl
  | succ count ih =>
    rw [leading, if_neg (Nat.succ_ne_zero count), moves_concat, rounds_succ, moves_concat, ih,
      move_ask, move_sleep, asked_succ, Nat.succ_mul, Nat.add_assoc]

theorem moves_rounds (count : Nat) :
    moves node hash s (rounds interval (count + 1)) =
      ⟨asked node hash s.machine (count + 1), s.now + count * interval⟩ := by
  rw [rounds_succ, moves_concat, moves_rounds_leading, move_ask, asked_succ]

/-- The time of the attempt that follows some rounds. -/
theorem now_rounds (count : Nat) :
    (moves node hash s (rounds interval count)).now + delay interval count =
      s.now + count * interval := by
  have htime : (moves node hash s (rounds interval count ++ leading interval count)).now =
      s.now + count * interval := by rw [moves_rounds_leading]
  rwa [moves_append_leading] at htime

/-! ## Attempts -/

/-- A pause passes if nobody cancels by its end. -/
theorem pause_of_lt {length : Nat} (h : ∀ c, cancelAt = some c → s.now + length < c) :
    pause length cancelAt s = (.ok (), { s with now := s.now + length }) := by
  cases cancelAt with
  | none => rfl
  | some c =>
    have hfilter : (some c).filter (· ≤ s.now + length) = none := by
      simpa using h c rfl
    simp only [pause, hfilter]

theorem pause_of_le {length c : Nat} (h : c ≤ s.now + length) :
    pause length (some c) s = (.error .cancelled, { s with now := max s.now c }) := by
  have hfilter : (some c).filter (· ≤ s.now + length) = some c := by
    simpa using h
  simp only [pause, hfilter]

/-- A pause that passes ends before the caller cancels. -/
theorem lead_waiting (interval made : Nat) :
    (waiting node hash cancelAt).lead interval made = pause (delay interval made) cancelAt := by
  unfold Wait.lead delay
  split
  · rfl
  · funext s
    rw [Request.bind_apply]
    cases hstop : cancelAt.filter (· ≤ s.now + interval) with
    | some c => simp only [waiting, pause, hstop]
    | none => simp only [waiting, pause, hstop, Nat.add_zero]

/-- The pause is noted down when it begins. -/
theorem lead_recorded {τ : Type} (w : Wait τ) (interval made : Nat) (r : Recorded Move τ) :
    w.recorded.lead interval made r =
      ((w.lead interval made r.machine).1,
        ⟨(w.lead interval made r.machine).2, r.notes ++ leading interval made⟩) := by
  unfold Wait.lead leading
  split
  · rw [List.append_nil]
    rfl
  · rw [Request.bind_apply, Request.bind_apply]
    simp only [Wait.recorded, Request.recording]
    rcases w.sleep interval r.machine with ⟨e | ⟨⟩, s⟩
    · rfl
    · rfl

/-- Nobody cancels by the time of an attempt. -/
theorem lead_of_lt {count : Nat} (h : ∀ c, cancelAt = some c → s.now + count * interval < c) :
    (waiting node hash cancelAt).recorded.lead interval count
        (recordedMoves node hash s (rounds interval count)) =
      (.ok (), recordedMoves node hash s (rounds interval count ++ leading interval count)) := by
  have hclock : ∀ c, cancelAt = some c →
      (moves node hash s (rounds interval count)).now + delay interval count < c := by
    intro c hc
    rw [now_rounds]
    exact h c hc
  simp only [lead_recorded, lead_waiting, recordedMoves, pause_of_lt hclock, moves_append_leading]

/-- The caller cancels by the time of an attempt. -/
theorem lead_of_le {count c : Nat} (h : c ≤ s.now + count * interval) :
    (waiting node hash (some c)).recorded.lead interval count
        (recordedMoves node hash s (rounds interval count)) =
      (.error .cancelled,
        ⟨{ moves node hash s (rounds interval count) with
            now := max (moves node hash s (rounds interval count)).now c },
          rounds interval count ++ leading interval count⟩) := by
  have hclock : c ≤ (moves node hash s (rounds interval count)).now + delay interval count := by
    rwa [now_rounds]
  simp only [lead_recorded, lead_waiting, recordedMoves, pause_of_le hclock]

/-- The question that follows some rounds. -/
theorem ask_recorded (count : Nat) :
    (observing (waiting node hash cancelAt).recorded.ask : Request _ _)
        (recordedMoves node hash s (rounds interval count ++ leading interval count)) =
      (.ok (answerAfter node hash s.machine count),
        recordedMoves node hash s (rounds interval (count + 1))) := by
  rw [Request.observing_apply, rounds_succ, recordedMoves, recordedMoves, moves_concat,
    moves_rounds_leading]
  rfl

theorem poll_of_cancelled {left count c : Nat} {last : Option NetworkFault}
    (h : c ≤ s.now + count * interval) :
    (waiting node hash (some c)).recorded.poll interval hash (left + 1) count last
        (recordedMoves node hash s (rounds interval count)) =
      (.error .cancelled,
        ⟨{ moves node hash s (rounds interval count) with
            now := max (moves node hash s (rounds interval count)).now c },
          rounds interval count ++ leading interval count⟩) := by
  rw [Wait.poll]
  exact Request.bind_of_error (lead_of_le h)

/-- An attempt asks the node once, and what the answer means is settled. -/
theorem poll_of_asked {left count : Nat} {last : Option NetworkFault}
    (h : ∀ c, cancelAt = some c → s.now + count * interval < c) :
    (waiting node hash cancelAt).recorded.poll interval hash (left + 1) count last
        (recordedMoves node hash s (rounds interval count)) =
      match settle hash (count + 1) (answerAfter node hash s.machine count) with
      | .inl result => (result, recordedMoves node hash s (rounds interval (count + 1)))
      | .inr last => (waiting node hash cancelAt).recorded.poll interval hash left (count + 1) last
          (recordedMoves node hash s (rounds interval (count + 1))) := by
  rw [Wait.poll]
  refine (Request.bind_of_ok (lead_of_lt h)).trans
    ((Request.bind_of_ok (ask_recorded count)).trans ?_)
  cases settle hash (count + 1) (answerAfter node hash s.machine count) <;> rfl

/-- What the last of some answers says of the network. -/
def lastFault (answer : Nat → Except ClientError TransactionStatus) : Nat → Option NetworkFault
  | 0 => none
  | count + 1 => faultOf (answer count)

/-- As long as nothing is decided or cancelled the attempts go on. -/
theorem poll_of_undecided {total count : Nat} (hle : count ≤ total)
    (hopen : ∀ i < count, Undecided (answerAfter node hash s.machine i))
    (hcancel : ∀ c, cancelAt = some c → ∀ i < count, s.now + i * interval < c) :
    (waiting node hash cancelAt).recorded.poll interval hash total 0 none ⟨s, []⟩ =
      (waiting node hash cancelAt).recorded.poll interval hash (total - count) count
        (lastFault (answerAfter node hash s.machine) count)
        (recordedMoves node hash s (rounds interval count)) := by
  induction count with
  | zero => rfl
  | succ count ih =>
    have hearlier := ih (Nat.le_of_succ_le hle) (fun i hi => hopen i (Nat.lt_succ_of_lt hi))
      fun c hc i hi => hcancel c hc i (Nat.lt_succ_of_lt hi)
    have hleft : total - count = total - (count + 1) + 1 := by omega
    rw [hearlier, hleft, poll_of_asked fun c hc => hcancel c hc count (Nat.lt_succ_self count),
      settle_of_undecided (hopen count (Nat.lt_succ_self count))]
    rfl

/-- A wait that is not cancelled by its last question ends with what comes of it. -/
theorem poll_of_outcome {total polls : Nat} {result : Except ClientError CommitResult}
    (htotal : total ≠ 0)
    (h : Outcome hash total (answerAfter node hash s.machine) polls result)
    (hcancel : ∀ c, cancelAt = some c → s.now + (polls - 1) * interval < c) :
    (waiting node hash cancelAt).recorded.poll interval hash total 0 none ⟨s, []⟩ =
      (result, recordedMoves node hash s (rounds interval polls)) := by
  have hearlier : ∀ c, cancelAt = some c → ∀ i < polls, s.now + i * interval < c := by
    intro c hc i hi
    have hle : i * interval ≤ (polls - 1) * interval :=
      Nat.mul_le_mul_right interval (Nat.le_sub_one_of_lt hi)
    have hlast := hcancel c hc
    omega
  cases h with
  | @decided i _ hlt hopen hdecides =>
    have hleft : total - i = total - (i + 1) + 1 := by omega
    have hbefore : ∀ c, cancelAt = some c → ∀ j < i, s.now + j * interval < c :=
      fun c hc j hj => hearlier c hc j (Nat.lt_succ_of_lt hj)
    rw [poll_of_undecided (Nat.le_of_lt hlt) hopen hbefore, hleft,
      poll_of_asked fun c hc => hearlier c hc i (Nat.lt_succ_self i), settle_of_decides hdecides]
  | @unreachable fault hopen hlast =>
    obtain ⟨n, rfl⟩ := Nat.exists_eq_succ_of_ne_zero htotal
    have hfault : lastFault (answerAfter node hash s.machine) (n + 1) = some fault :=
      faultOf_eq_some.mpr hlast
    rw [poll_of_undecided (Nat.le_refl _) hopen hearlier, hfault, Nat.sub_self,
      Wait.poll_of_exhausted]
  | timedOut hopen hlast =>
    obtain ⟨n, rfl⟩ := Nat.exists_eq_succ_of_ne_zero htotal
    have hfault : lastFault (answerAfter node hash s.machine) (n + 1) = none :=
      Option.eq_none_iff_forall_ne_some.mpr fun fault heq => hlast fault (faultOf_eq_some.mp heq)
    rw [poll_of_undecided (Nat.le_refl _) hopen hearlier, hfault, Nat.sub_self,
      Wait.poll_of_exhausted]

theorem poll_of_cancelled_before {total c : Nat} (htotal : total ≠ 0) (h : c ≤ s.now) :
    (waiting node hash (some c)).recorded.poll interval hash total 0 none ⟨s, []⟩ =
      (.error .cancelled, ⟨s, []⟩) := by
  obtain ⟨left, rfl⟩ := Nat.exists_eq_succ_of_ne_zero htotal
  have hfirst : c ≤ s.now + 0 * interval := by omega
  refine (poll_of_cancelled hfirst).trans ?_
  show (_, (⟨{ s with now := max s.now c }, []⟩ : Recorded Move (Timed σ))) = _
  rw [Nat.max_eq_left h]

/-- A wait that is cancelled in a pause ends there. -/
theorem poll_of_cancelled_pause {total count c : Nat} (hlt : count + 1 < total)
    (hopen : ∀ i ≤ count, Undecided (answerAfter node hash s.machine i))
    (hafter : s.now + count * interval < c) (hby : c ≤ s.now + (count + 1) * interval) :
    (waiting node hash (some c)).recorded.poll interval hash total 0 none ⟨s, []⟩ =
      (.error .cancelled,
        ⟨{ moves node hash s (rounds interval (count + 1)) with now := c },
          rounds interval (count + 1) ++ [.sleep interval]⟩) := by
  have hleft : total - (count + 1) = total - (count + 2) + 1 := by omega
  rw [poll_of_undecided (Nat.le_of_lt hlt) (fun i hi => hopen i (Nat.le_of_lt_succ hi)), hleft,
    poll_of_cancelled hby]
  · rw [moves_rounds, Nat.max_eq_right (Nat.le_of_lt hafter)]
    rfl
  · rintro _ ⟨⟩ i hi
    have hle : i * interval ≤ count * interval :=
      Nat.mul_le_mul_right interval (Nat.le_of_lt_succ hi)
    omega

end

/-! ## The wait -/

/-- The wait ends with the result, and leaves the machine and the clock as in `final`. While
it goes on, what is recorded are the questions and pauses of the course, and no others. -/
structure Ends (node : Node σ) (config : Config) (hash : Digest) (cancelAt : Option Nat)
    (s : Timed σ) (course : List Move) (result : Except ClientError CommitResult)
    (final : Timed σ) : Prop where
  run : awaitCommitment node config hash cancelAt s = (result, final)
  recorded : (waiting node hash cancelAt).recorded.await config hash ⟨s, []⟩ =
    (result, ⟨final, course⟩)

section
variable {node : Node σ} {config : Config} {hash : Digest} {cancelAt : Option Nat} {s : Timed σ}

/-- The recorder changes nothing. -/
theorem Ends.of_recorded {course : List Move} {result : Except ClientError CommitResult}
    {final : Timed σ} (h : (waiting node hash cancelAt).recorded.await config hash ⟨s, []⟩ =
      (result, ⟨final, course⟩)) : Ends node config hash cancelAt s course result final where
  run := by
    have hsame := (waiting node hash cancelAt).mirrors_recorded.await config hash ⟨s, []⟩
    rw [h] at hsame
    exact hsame
  recorded := h

theorem Ends.of_outcome (htotal : config.maxAttempts.toNat ≠ 0) {polls : Nat}
    {result : Except ClientError CommitResult}
    (h : Outcome hash config.maxAttempts.toNat (answerAfter node hash s.machine) polls result)
    (hcancel : ∀ c, cancelAt = some c → s.now + (polls - 1) * config.pollInterval.toNat < c) :
    Ends node config hash cancelAt s (rounds config.pollInterval.toNat polls) result
      (moves node hash s (rounds config.pollInterval.toNat polls)) :=
  .of_recorded (poll_of_outcome htotal h hcancel)

theorem Ends.of_cancelled_before (htotal : config.maxAttempts.toNat ≠ 0) {c : Nat}
    (h : c ≤ s.now) : Ends node config hash (some c) s [] (.error .cancelled) s :=
  .of_recorded (poll_of_cancelled_before htotal h)

end

/-- A wait asks, with pauses of the same length in between, until an answer decides or the
attempts are used up, and reports that answer, or else the last one if the network failed,
or else that it took too long. If the caller cancels in time, before the first question or
in a pause, that is reported after the questions made so far, and the pause is the last that
is begun; later it changes nothing. -/
theorem awaitCommitment_eq (node : Node σ) (config : Config) (hash : Digest) (s : Timed σ)
    (hattempts : config.maxAttempts ≠ 0) :
    let interval := config.pollInterval.toNat
    let total := config.maxAttempts.toNat
    let answer := answerAfter node hash s.machine
    (∃ polls result, Outcome hash total answer polls result) ∧
    (∀ polls, (rounds interval polls).count .ask = polls ∧
      (rounds interval polls).count (.sleep interval) = polls - 1 ∧
      (rounds interval polls).length = polls + (polls - 1)) ∧
    (∀ polls result, Outcome hash total answer polls result →
      ∀ cancelAt, (∀ c, cancelAt = some c → s.now + (polls - 1) * interval < c) →
        Ends node config hash cancelAt s (rounds interval polls) result
          (moves node hash s (rounds interval polls))) ∧
    (∀ c ≤ s.now, Ends node config hash (some c) s [] (.error .cancelled) s) ∧
    ∀ polls c, 0 < polls → polls < total → (∀ i < polls, Undecided (answer i)) →
      s.now + (polls - 1) * interval < c → c ≤ s.now + polls * interval →
        Ends node config hash (some c) s (rounds interval polls ++ [.sleep interval])
          (.error .cancelled) { moves node hash s (rounds interval polls) with now := c } := by
  intro interval total answer
  have htotal : total ≠ 0 := fun hzero => hattempts (UInt32.toNat_inj.mp hzero)
  refine ⟨exists_outcome hash total answer, count_rounds interval, ?_, ?_, ?_⟩
  · intro polls result houtcome cancelAt hcancel
    exact .of_outcome htotal houtcome hcancel
  · intro c hc
    exact .of_cancelled_before htotal hc
  · intro polls c hpos hlt hopen hafter hby
    obtain ⟨count, rfl⟩ := Nat.exists_eq_succ_of_ne_zero (Nat.pos_iff_ne_zero.mp hpos)
    exact .of_recorded
      (poll_of_cancelled_pause hlt (fun i hi => hopen i (Nat.lt_succ_of_le hi)) hafter hby)

/-- A node that answers and cannot be reached in between. -/
def flaky : ScriptedNode := ⟨⟨[]⟩, none, none, ⟨none⟩, .pending, false⟩

def flakyScript : ScriptedNode.State :=
  .initial [.ok .unknown, .error (.network .refused), .ok .pending, .ok .committed]

theorem undecided_flakyScript (hash : Digest) :
    ∀ i < 3, Undecided (answerAfter flaky.node hash flakyScript i)
  | 0, _ => .unknown
  | 1, _ => .unreachable .refused
  | 2, _ => .pending

/-- The fourth question decides, after three pauses; in the second pause the wait may be
cancelled. -/
theorem awaitCommitment_eq_flaky :
    Config.standard.maxAttempts ≠ 0 ∧
      ∀ hash, Ends flaky.node .standard hash (some 1501) ⟨flakyScript, 0⟩
          [.ask, .sleep 500, .ask, .sleep 500, .ask, .sleep 500, .ask]
          (.ok (.committed hash 4)) ⟨⟨[], [], 4⟩, 1500⟩ ∧
        Ends flaky.node .standard hash (some 0) ⟨flakyScript, 0⟩ [] (.error .cancelled)
          ⟨flakyScript, 0⟩ ∧
        Ends flaky.node .standard hash (some 700) ⟨flakyScript, 0⟩
          [.ask, .sleep 500, .ask, .sleep 500] (.error .cancelled)
          ⟨⟨[.ok .pending, .ok .committed], [], 2⟩, 700⟩ := by
  have hattempts : Config.standard.maxAttempts ≠ 0 := by decide
  refine ⟨hattempts, fun hash => ?_⟩
  have hopen := undecided_flakyScript hash
  obtain ⟨-, -, hdecided, hbefore, hpause⟩ :=
    awaitCommitment_eq flaky.node .standard hash ⟨flakyScript, 0⟩ hattempts
  refine ⟨?_, hbefore 0 (Nat.le_refl 0), ?_⟩
  · refine hdecided 4 _ (.decided (by decide) hopen .committed) (some 1501) ?_
    rintro _ ⟨⟩
    decide
  · exact hpause 2 700 (by decide) (by decide) (fun i hi => hopen i (Nat.lt_succ_of_lt hi))
      (by decide) (by decide)

end LightClient.Client
