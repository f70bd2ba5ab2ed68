import Rtti.Memory.Process
import Rtti.Memory.Snapshot
import Rtti.Proofs.Decoder.Effort
import Rtti.Session

/-!
# Scans that do not break down

A scan breaks down for one of three reasons: the undecorator does, 64 bits do not hold
the size of a name, or the memory does (`Decoder.breaks_of_run_decodeObject`).  Under
settings that have passed their check names are small, and the memory of a snapshot or of
a process answers every small read (`Target.Steady`).  So there only the undecorator is
left (`Session.decode_ne_brokeDown`).
-/

namespace Rtti

/-- The undecorator never breaks down. -/
def Msvc.Undecorator.Total (undecorate : Undecorator) : Prop :=
  ∀ decorated, ∃ name, undecorate decorated = .ok name

/-! ## Steady targets -/

/-- The memory does not break down over a read whose bytes can be held. -/
def Target.Steady (target : Target) : Prop :=
  ∀ address size complaint, size ≤ Memory.capacity →
    target.memory address size ≠ .error (.scanBrokeDown complaint)

theorem Snapshot.steady_target (s : Snapshot) : s.target.Steady := by
  intro address size complaint _ hbroke
  replace hbroke : s.read address size = .error (.scanBrokeDown complaint) := hbroke
  unfold read at hbroke
  split at hbroke
  · cases Except.error.inj hbroke
  · dsimp only at hbroke
    split at hbroke
    · cases Except.error.inj hbroke
    · split at hbroke
      · contradiction
      · cases Except.error.inj hbroke

theorem Process.steady_target (process : Process) (width : PointerWidth) :
    (process.target width).Steady := by
  intro address size complaint hsize hbroke
  replace hbroke : process.memory width address size = .error (.scanBrokeDown complaint) := hbroke
  unfold memory at hbroke
  rw [if_neg (Nat.not_lt.2 hsize)] at hbroke
  split at hbroke
  · cases Except.error.inj hbroke
  · split at hbroke
    · contradiction
    · cases Except.error.inj hbroke

/-- Answers of a wrong length are read faults. -/
theorem Target.Steady.read_ne_brokeDown {target : Target} (hsteady : target.Steady)
    {address : Address} {size : Nat} (hsize : size ≤ Memory.capacity) (complaint : String) :
    target.read address size ≠ .error (.scanBrokeDown complaint) := by
  intro hread
  unfold read at hread
  split at hread
  · next error hanswer =>
    obtain rfl := Except.error.inj hread
    exact hsteady address size complaint hsize hanswer
  · split at hread
    · contradiction
    · cases Except.error.inj hread

/-! ## Breakdowns of scans -/

namespace Inspection

variable {α : Type} {rule : Rule} {breaks : String → Prop} {post : List Access → α → Prop}
  {x : Inspection α} {target : Target} {complaint : String}

/-- A disciplined inspection breaks down with one of its complaints, or because a read
does. -/
theorem KeepsTo.breaks_of_run (hx : x.KeepsTo rule breaks post [])
    (hrun : x.run target = .error (.scanBrokeDown complaint)) :
    breaks complaint ∨ ∃ access ∈ x.reads target,
      target.read access.address access.size = .error (.scanBrokeDown complaint) := by
  by_cases hbreaks : breaks complaint
  · exact .inl hbreaks
  · have hforeign : ¬ScanError.IsOwn breaks (.scanBrokeDown complaint) := hbreaks
    obtain ⟨exchange, hmem, -, houtcome⟩ :=
      hx.failure_of_course (hrun ▸ course_run target x) hforeign
    obtain ⟨access, haccess, rfl⟩ := List.mem_map.1 hmem
    exact .inr ⟨access, haccess, houtcome⟩

end Inspection

theorem Decoder.breaks_of_run_decodeObject {decoder : Decoder} {target : Target}
    {undecorate : Msvc.Undecorator} {text complaint : String}
    (hrun : (decoder.decodeObject target.width undecorate text).run target =
      .error (.scanBrokeDown complaint)) :
    decoder.limits.BreaksWith undecorate complaint ∨
      ∃ access ∈ (decoder.decodeObject target.width undecorate text).reads target,
        target.read access.address access.size = .error (.scanBrokeDown complaint) :=
  (keepsTo_decodeObject text).breaks_of_run hrun

/-- A scan of a steady target under checked settings breaks down only if the undecorator
does. -/
theorem Session.decode_ne_brokeDown {session : Session} {settings : Settings}
    (hsteady : session.target.Steady) (htotal : session.undecorate.Total)
    (hcheck : settings.check = .ok ()) (hlimits : session.decoder.limits = settings.scanner.limits)
    (text complaint : String) : session.decode text ≠ .error (.scanBrokeDown complaint) := by
  intro hdecode
  rcases Decoder.breaks_of_run_decodeObject hdecode with
    (⟨hlarge, -⟩ | ⟨decorated, hbroke⟩) | ⟨access, haccess, hread⟩
  · have hname : session.decoder.limits.nameUnits ≤ 4096 :=
      hlimits ▸ Settings.nameUnits_le_of_check hcheck
    have hunit : session.decoder.limits.encoding.unitSize = 1 := hlimits ▸ rfl
    rw [hunit] at hlarge
    omega
  · obtain ⟨name, hname⟩ := htotal decorated
    rw [hname] at hbroke
    contradiction
  · have hsize : access.size ≤ 4096 := Decoder.size_le_of_check hcheck hlimits haccess
    exact hsteady.read_ne_brokeDown (hsize.trans (by decide)) complaint hread

end Rtti
