import XconnCpp.Library.Lock
import XconnCpp.Library.Transition
import XconnCpp.Framing
import Mathlib.Logic.Function.Basic

namespace XconnCpp.SocketTransport

open Library.Lock Library.Transition

inductive Writing
  | locking (bytes : List Byte)
  | making (bytes : List Byte)
  | sendingHeader (bytes rest : List Byte)
  | sendingPayload (bytes rest : List Byte)
  | unlocking (written : Option (List Byte))

structure Wire (ι : Type) where
  writeMutex : Option ι
  outgoing : List Byte

structure Writers (ι : Type) extends Wire ι where
  writers : ι → Option Writing
  calls : ι → List (List Byte)

inductive WriteLabel (ι : Type)
  | call (i : ι) (bytes : List Byte)
  | writer (i : ι)
  | chunk (i : ι) (k : ℕ)
  | failure (i : ι)

def WriteLabel.isFailure {ι : Type} : WriteLabel ι → Bool
  | .failure _ => true
  | _ => false

variable {ι : Type} (codec : HeaderCodec)

namespace Writing

def advance (i : ι) (q : Wire ι) : Writing → Option (Option Writing × Wire ι)
  | .locking bytes =>
    if q.writeMutex.isNone then some (some (.making bytes), { q with writeMutex := some i }) else none
  | .making bytes =>
    match codec.new .wamp bytes.length with
    | none => some (some (.unlocking none), q)
    | some header => some (some (.sendingHeader bytes (codec.send header)), q)
  | .sendingHeader bytes [] => some (some (.sendingPayload bytes bytes), q)
  | .sendingPayload bytes [] => some (some (.unlocking (some bytes)), q)
  | .unlocking _ => some (none, { q with writeMutex := none })
  | _ => none

def chunk (k : ℕ) (q : Wire ι) : Writing → Option (Writing × Wire ι)
  | .sendingHeader bytes rest =>
    if 0 < k ∧ k ≤ rest.length then
      some (.sendingHeader bytes (rest.drop k), { q with outgoing := q.outgoing ++ rest.take k })
    else none
  | .sendingPayload bytes rest =>
    if 0 < k ∧ k ≤ rest.length then
      some (.sendingPayload bytes (rest.drop k), { q with outgoing := q.outgoing ++ rest.take k })
    else none
  | _ => none

def fail : Writing → Option Writing
  | .sendingHeader _ _ | .sendingPayload _ _ => some (.unlocking none)
  | _ => none

end Writing

namespace Writers

def start : Writers ι := ⟨⟨none, []⟩, fun _ => none, fun _ => []⟩

variable [DecidableEq ι]

def put (s : Writers ι) (i : ι) (w : Option Writing) (q : Wire ι) : Writers ι :=
  { s with toWire := q, writers := Function.update s.writers i w }

def step (s : Writers ι) : WriteLabel ι → Option (Writers ι)
  | .call i bytes =>
    if (s.writers i).isNone then
      some { s with
        writers := Function.update s.writers i (some (.locking bytes))
        calls := Function.update s.calls i (s.calls i ++ [bytes]) }
    else none
  | .writer i => (s.writers i).bind fun w =>
      (w.advance codec i s.toWire).map fun (w, q) => s.put i w q
  | .chunk i k => (s.writers i).bind fun w =>
      (w.chunk k s.toWire).map fun (w, q) => s.put i (some w) q
  | .failure i => (s.writers i).bind fun w => w.fail.map fun w => s.put i (some w) s.toWire

end Writers

namespace Writing

variable {i : ι} {q q' : Wire ι} {w w' : Writing} {codec}

def inside : Writing → Bool
  | .locking _ => false
  | _ => true

def call : Writing → Option (List Byte)
  | .locking bytes | .making bytes | .sendingHeader bytes _ | .sendingPayload bytes _ => some bytes
  | .unlocking written => written

variable (codec) in
def unsent : Writing → List Byte
  | .making bytes => frame codec bytes
  | .sendingHeader bytes rest => rest ++ bytes
  | .sendingPayload _ rest => rest
  | _ => []

variable (codec) in
def current : Writing → List Byte
  | .making bytes | .sendingHeader bytes _ | .sendingPayload bytes _ | .unlocking (some bytes) => frame codec bytes
  | _ => []

variable (codec) in
inductive Stepped (i : ι) (q : Wire ι) : Writing → Option Writing → Wire ι → Prop
  | enter (bytes : List Byte) (h : q.writeMutex = none) :
      Stepped i q (.locking bytes) (some (.making bytes)) { q with writeMutex := some i }
  | write (w w' : Writing) (outgoing : List Byte) (hw : w.inside = true) (hw' : w'.inside = true)
      (hcall : w'.call = w.call) (hcurrent : w'.current codec = w.current codec)
      (h : outgoing ++ w'.unsent codec = q.outgoing ++ w.unsent codec) :
      Stepped i q w (some w') { q with outgoing := outgoing }
  | leave (bytes : List Byte) :
      Stepped i q (.unlocking (some bytes)) none { q with writeMutex := none }

theorem advance_making (bytes : List Byte) : (Writing.making bytes).advance codec i q =
    some (some (.sendingHeader bytes (codec.send ⟨.wamp, bytes.length⟩)), q) := by
  simp [advance, codec.new_eq]

theorem stepped_of_advance {w' : Option Writing} (hw : w.call.isSome = true)
    (h : w.advance codec i q = some (w', q')) : w.Stepped codec i q w' q' := by
  cases w with
  | locking bytes =>
    obtain ⟨hfree, he⟩ := Option.ite_none_right_eq_some.mp h
    cases he
    exact .enter bytes (Option.isNone_iff_eq_none.mp hfree)
  | making bytes =>
    rw [advance_making] at h
    cases h
    exact .write _ _ q.outgoing rfl rfl rfl rfl rfl
  | sendingHeader bytes rest =>
    cases rest with
    | nil =>
      cases h
      exact .write _ _ q.outgoing rfl rfl rfl rfl rfl
    | cons => cases h
  | sendingPayload bytes rest =>
    cases rest with
    | nil =>
      cases h
      exact .write _ _ q.outgoing rfl rfl rfl rfl rfl
    | cons => cases h
  | unlocking written =>
    cases written with
    | none => cases hw
    | some bytes =>
      cases h
      exact .leave bytes

theorem stepped_of_chunk {k : ℕ} (h : w.chunk k q = some (w', q')) :
    w.Stepped codec i q (some w') q' := by
  cases w with
  | sendingHeader bytes rest =>
    obtain ⟨-, he⟩ := Option.ite_none_right_eq_some.mp h
    cases he
    have hrest : rest.take k ++ (rest.drop k ++ bytes) = rest ++ bytes := by
      rw [← List.append_assoc, List.take_append_drop]
    exact .write _ _ _ rfl rfl rfl rfl (by simp [unsent, hrest])
  | sendingPayload bytes rest =>
    obtain ⟨-, he⟩ := Option.ite_none_right_eq_some.mp h
    cases he
    exact .write _ _ _ rfl rfl rfl rfl (by simp [unsent])
  | _ => cases h

end Writing

namespace Writers

variable {s s' : Writers ι} {codec} {order : List (ι × List Byte)} {i : ι}

def inside (s : Writers ι) (i : ι) : Prop := (s.writers i).any Writing.inside = true

variable (codec) in
def unsent (s : Writers ι) : List Byte :=
  (s.writeMutex.bind s.writers).elim [] (Writing.unsent codec)

variable (codec) in
def current (s : Writers ι) : List Byte :=
  (s.writeMutex.bind s.writers).elim [] (Writing.current codec)

def unfinished (s : Writers ι) (i : ι) : Option (List Byte) := (s.writers i).bind Writing.call

variable (codec) in
def frames (order : List (ι × List Byte)) : List Byte := (order.map fun c => frame codec c.2).flatten

@[simp] theorem frames_append_singleton (c : ι × List Byte) :
    frames codec (order ++ [c]) = frames codec order ++ frame codec c.2 := by
  simp [frames]

variable [DecidableEq ι]

def payloadsOf (order : List (ι × List Byte)) (i : ι) : List (List Byte) :=
  (order.filter fun c => c.1 = i).map Prod.snd

theorem payloadsOf_append_self (bytes : List Byte) :
    payloadsOf (order ++ [(i, bytes)]) i = payloadsOf order i ++ [bytes] := by
  simp [payloadsOf]

theorem payloadsOf_append_of_ne {j : ι} (hj : j ≠ i) (bytes : List Byte) :
    payloadsOf (order ++ [(i, bytes)]) j = payloadsOf order j := by
  simp [payloadsOf, Ne.symm hj]

variable (codec) in
structure Serial (s : Writers ι) (order : List (ι × List Byte)) : Prop where
  exclusive : Exclusive s.writeMutex s.inside
  wire : s.outgoing ++ s.unsent codec = frames codec order ++ s.current codec
  calls : ∀ i, payloadsOf order i ++ (s.unfinished i).toList = s.calls i
  unfailed : ∀ i w, s.writers i = some w → w.call.isSome = true

section Put

variable (s : Writers ι) (i : ι) (w : Option Writing) (q : Wire ι)

@[simp] theorem put_toWire : (s.put i w q).toWire = q := rfl

@[simp] theorem put_writers : (s.put i w q).writers = Function.update s.writers i w := rfl

@[simp] theorem put_calls : (s.put i w q).calls = s.calls := rfl

end Put

theorem put_inside_of_ne {w : Option Writing} {q : Wire ι} {j : ι} (hj : j ≠ i) :
    (s.put i w q).inside j ↔ s.inside j := by
  simp [inside, hj]

theorem Serial.unfailed_put (h : Serial codec s order) {w : Option Writing} {q : Wire ι}
    (hw : ∀ v, w = some v → v.call.isSome = true) (j : ι) (v : Writing)
    (hv : (s.put i w q).writers j = some v) : v.call.isSome = true := by
  by_cases hj : j = i
  · subst hj
    exact hw v (by simpa using hv)
  · exact h.unfailed j v (by simpa [hj] using hv)

theorem Serial.enter (h : Serial codec s order) {bytes : List Byte} (hfree : s.writeMutex = none)
    (hi : s.writers i = some (.locking bytes)) :
    Serial codec (s.put i (some (.making bytes)) { s.toWire with writeMutex := some i }) order := by
  constructor
  · apply h.exclusive.turn (t := i)
    · exact .inr (.inl ⟨hfree, rfl, by simp [inside, Writing.inside]⟩)
    · exact fun j hj => put_inside_of_ne hj
  · have hwire : s.outgoing = frames codec order := by
      simpa [unsent, current, hfree] using h.wire
    simp [unsent, current, hwire, Writing.unsent, Writing.current]
  · intro j
    rw [put_calls, ← h.calls j]
    by_cases hj : j = i
    · subst hj
      simp [unfinished, hi, Writing.call]
    · simp [unfinished, hj]
  · exact h.unfailed_put fun v hv => Option.some.inj hv ▸ rfl

theorem Serial.holder (h : Serial codec s order) {w : Writing} (hi : s.writers i = some w)
    (hw : w.inside = true) : s.writeMutex = some i :=
  (h.exclusive i).mp (by simpa [inside, hi] using hw)

theorem Serial.write (h : Serial codec s order) {w w' : Writing} {outgoing : List Byte}
    (hi : s.writers i = some w) (hw : w.inside = true) (hw' : w'.inside = true)
    (hcall : w'.call = w.call) (hcurrent : w'.current codec = w.current codec)
    (hsent : outgoing ++ w'.unsent codec = s.outgoing ++ w.unsent codec) :
    Serial codec (s.put i (some w') { s.toWire with outgoing := outgoing }) order := by
  have hholder := h.holder hi hw
  constructor
  · apply h.exclusive.same
    intro j
    by_cases hj : j = i
    · subst hj
      simp [inside, hi, hw, hw']
    · exact put_inside_of_ne hj
  · have hwire : s.outgoing ++ w.unsent codec = frames codec order ++ w.current codec := by
      simpa [unsent, current, hholder, hi] using h.wire
    simpa [unsent, current, hholder, hcurrent] using hsent.trans hwire
  · intro j
    rw [put_calls, ← h.calls j]
    by_cases hj : j = i
    · subst hj
      simp [unfinished, hi, hcall]
    · simp [unfinished, hj]
  · apply h.unfailed_put
    rintro v hv
    rw [← Option.some.inj hv, hcall]
    exact h.unfailed i w hi

theorem Serial.leave (h : Serial codec s order) {bytes : List Byte}
    (hi : s.writers i = some (.unlocking (some bytes))) :
    Serial codec (s.put i none { s.toWire with writeMutex := none }) (order ++ [(i, bytes)]) := by
  have hholder := h.holder hi rfl
  constructor
  · apply h.exclusive.turn (t := i)
    · exact .inr (.inr ⟨by simp [inside, hi, Writing.inside], rfl, by simp [inside]⟩)
    · exact fun j hj => put_inside_of_ne hj
  · have hwire : s.outgoing = frames codec order ++ frame codec bytes := by
      simpa [unsent, current, hholder, hi, Writing.unsent, Writing.current] using h.wire
    simp [unsent, current, hwire]
  · intro j
    rw [put_calls, ← h.calls j]
    by_cases hj : j = i
    · subst hj
      simp [payloadsOf_append_self, unfinished, hi, Writing.call]
    · simp [payloadsOf_append_of_ne hj, unfinished, hj]
  · exact h.unfailed_put (by simp)

theorem Serial.call (h : Serial codec s order) {bytes : List Byte} (hi : s.writers i = none) :
    Serial codec { s with
      writers := Function.update s.writers i (some (.locking bytes))
      calls := Function.update s.calls i (s.calls i ++ [bytes]) } order := by
  have hother {j : ι} (hj : s.writeMutex = some j) : j ≠ i := by
    rintro rfl
    have hin : s.inside j := (h.exclusive j).mpr hj
    simp [inside, hi] at hin
  constructor
  · apply h.exclusive.same
    intro j
    by_cases hj : j = i
    · subst hj
      simp [inside, hi, Writing.inside]
    · simp [inside, hj]
  · have hwire := h.wire
    cases hm : s.writeMutex with
    | none => simpa [unsent, current, hm] using hwire
    | some j => simpa [unsent, current, hm, hother hm] using hwire
  · intro j
    by_cases hj : j = i
    · subst hj
      have hcalls := h.calls j
      simp only [unfinished, hi, Option.bind_none, Option.toList_none, List.append_nil] at hcalls
      simp [unfinished, hcalls, Writing.call]
    · simpa [unfinished, hj] using h.calls j
  · intro j v hv
    by_cases hj : j = i
    · subst hj
      simp only [Function.update_self, Option.some.injEq] at hv
      exact hv ▸ rfl
    · exact h.unfailed j v (by simpa [hj] using hv)

theorem Serial.stepped (h : Serial codec s order) {w : Writing} {w' : Option Writing} {q : Wire ι}
    (hi : s.writers i = some w) (hs : w.Stepped codec i s.toWire w' q) :
    ∃ order, Serial codec (s.put i w' q) order := by
  cases hs with
  | enter bytes hfree => exact ⟨order, h.enter hfree hi⟩
  | write w w' outgoing hw hw' hcall hcurrent hsent =>
    exact ⟨order, h.write hi hw hw' hcall hcurrent hsent⟩
  | leave bytes => exact ⟨order ++ [(i, bytes)], h.leave hi⟩

theorem Serial.step {l : WriteLabel ι} (h : Serial codec s order) (hl : l.isFailure = false)
    (hstep : step codec s l = some s') : ∃ order, Serial codec s' order := by
  cases l with
  | call i bytes =>
    obtain ⟨hi, he⟩ := Option.ite_none_right_eq_some.mp hstep
    cases he
    exact ⟨order, h.call (Option.isNone_iff_eq_none.mp hi)⟩
  | writer i =>
    obtain ⟨w, hi, hstep⟩ := Option.bind_eq_some_iff.mp hstep
    obtain ⟨⟨w', q⟩, hw, he⟩ := Option.map_eq_some_iff.mp hstep
    cases he
    exact h.stepped hi (Writing.stepped_of_advance (h.unfailed i w hi) hw)
  | chunk i k =>
    obtain ⟨w, hi, hstep⟩ := Option.bind_eq_some_iff.mp hstep
    obtain ⟨⟨w', q⟩, hw, he⟩ := Option.map_eq_some_iff.mp hstep
    cases he
    exact h.stepped hi (Writing.stepped_of_chunk hw)
  | failure i => cases hl

theorem Serial.start : Serial codec (start : Writers ι) [] where
  exclusive i := by simp [inside, Writers.start]
  wire := rfl
  calls _ := rfl
  unfailed _ _ h := by cases h

variable {labels : List (WriteLabel ι)}

theorem exists_serial (hfail : ∀ l ∈ labels, l.isFailure = false)
    (hrun : exec (step codec) start labels = some s) : ∃ order, Serial codec s order := by
  apply exec_preserves (I := fun s => ∃ order, Serial codec s order)
    (C := fun _ (l : WriteLabel ι) => l.isFailure = false)
  · rintro t l t' ⟨order, h⟩ hl hstep
    exact h.step hl hstep
  · exact ⟨[], .start⟩
  · exact along_of_forall hfail
  · exact hrun

theorem Serial.outgoing_of_free (h : Serial codec s order) (hfree : s.writeMutex = none) :
    s.outgoing = frames codec order := by
  simpa [unsent, current, hfree] using h.wire

/-- Whenever no writer holds the mutex, the wire is a sequence of whole frames, one for each finished
call, with those of each thread in the order of its calls. -/
theorem wire_of_whole_frames (hfail : ∀ l ∈ labels, l.isFailure = false)
    (hrun : exec (step codec) start labels = some s) (hfree : s.writeMutex = none) :
    ∃ order : List (ι × List Byte), s.outgoing = (order.map fun c => frame codec c.2).flatten ∧
      ∀ i, (order.filter fun c => c.1 = i).map Prod.snd ++ (s.unfinished i).toList = s.calls i := by
  obtain ⟨order, h⟩ := exists_serial hfail hrun
  exact ⟨order, h.outgoing_of_free hfree, h.calls⟩

def twoWriters : List (WriteLabel Bool) :=
  [.call true [7, 8, 9], .call false [5], .writer true, .writer true, .chunk true 3, .chunk true 1,
    .writer true, .chunk true 2, .chunk true 1, .writer true, .writer true, .writer false,
    .writer false, .chunk false 4, .writer false, .chunk false 1, .writer false, .writer false,
    .call true []]

theorem wire_of_two_writers : ∃ s : Writers Bool, exec (step rawSocket) start twoWriters = some s ∧
    s.outgoing = frame rawSocket [7, 8, 9] ++ frame rawSocket [5] ∧
    ∃ order : List (Bool × List Byte), s.outgoing = (order.map fun c => frame rawSocket c.2).flatten ∧
      ∀ i, (order.filter fun c => c.1 = i).map Prod.snd ++ (s.unfinished i).toList = s.calls i := by
  have hrun : ((exec (step rawSocket) start twoWriters).map fun s => (s.outgoing, s.writeMutex)) =
    some (frame rawSocket [7, 8, 9] ++ frame rawSocket [5], none) := by decide
  obtain ⟨s, hs, he⟩ := Option.map_eq_some_iff.mp hrun
  obtain ⟨hout, hfree⟩ := Prod.mk.inj he
  exact ⟨s, hs, hout, wire_of_whole_frames (by decide) hs hfree⟩

end Writers

end XconnCpp.SocketTransport
