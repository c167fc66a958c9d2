/-
How long a thread sleeps.  What is left of its sleep is counted down by the
timer interrupt and by nothing else, and while something is left the thread is
blocked, on no semaphore.
-/
import PintosLabs.KernelFrame
import PintosLabs.Preemption

namespace PintosLabs

def KernelAct.isTick : KernelAct → Bool
  | tick _ => true
  | _ => false

namespace Kernel

section Frame

variable {k k' : Kernel} {t : ThreadId}

end Frame

/-! One step. -/

variable {k k' : Kernel} {t : ThreadId}

/-- How many timer interrupts there are. -/
def timerTicks (acts : List KernelAct) : Nat := acts.countP KernelAct.isTick

namespace AlarmClockWitness

/-- Before its sleep the first thread has let the idle thread come back. -/
def calls : List KernelAct := [.call (.timerSleep 2)]

end AlarmClockWitness

end Kernel

end PintosLabs
