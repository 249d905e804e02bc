import WindLtask.Runtime.Pools
import WindLtask.Runtime.Safety

/-!
# A running service that is hung up

`service_hang` leaves a running service as it is, and `dispatch_schedule_message` puts
it into the schedule all the same.  Then it stands in two places: every service stands
where its status says exactly in the runs in which root hangs up none that is running.
-/

namespace WindLtask.Runtime

open Lib

variable {D : Type}

namespace World

variable {heard hung : Prop} {config : Config} {w w' : World D}

theorem dispatchScheduleMessage_running {msg : Message D} (kind : msg.type = scheduleHang)
    (running : (w.pool.hang msg.session).2 = true) :
    w.dispatchScheduleMessage serviceIdRoot msg =
      (w.scheduleBack msg.session).setPool
        ((w.scheduleBack msg.session).pool.writeReceipt serviceIdRoot .error (some msg)) := by
  have elsewhere : w.pool.statusGet msg.session ≠ .schedule := by
    intro status
    simp [Pool.hang, status] at running
  simp [dispatchScheduleMessage, kind, scheduleNew, scheduleDel, scheduleHang, elsewhere, running]

/-- What the owner is at when root hangs up a running service. -/
structure HangsUp (w : World D) (t : Thread) (goal : Goal) (doneJob : List ℕ)
    (msg : Message D) : Prop where
  owner : w.owner = some (t, .dispatch goal (serviceIdRoot :: doneJob))
  alive : w.pool.statusGet serviceIdRoot ≠ .dead
  out : w.pool.out serviceIdRoot = some msg
  system : msg.to' = serviceIdSystem
  kind : msg.type = scheduleHang
  running : (w.pool.hang msg.session).2 = true

/-- The pool once root has its message back. -/
def handedBack (p : Pool D) (msg : Message D) : Pool D :=
  (p.takeOut serviceIdRoot).writeReceipt serviceIdRoot .error (some msg)

/-- The schedule has room for the service, since root is not in it. -/
theorem HangsUp.moved {t : Thread} {goal : Goal} {doneJob : List ℕ} {msg : Message D}
    (hangs : w.HangsUp t goal doneJob msg) (sound : w.Sound heard hung config)
    (exclusive : 0 < config.exclusive) (is : w.step config .owner = some w') :
    w' = ((w.setPool (handedBack w.pool msg)).setSchedule (w.schedule ++ [msg.session])).go t
      (.finish goal serviceIdRoot doneJob) := by
  obtain ⟨split', R, found, told⟩ :=
    sound.told_owner hangs.owner (slips_cons serviceIdRoot doneJob .ended)
  have alive : R.status ≠ .dead := Pool.statusGet_of_get found ▸ hangs.alive
  have done' : R.status = .done := by
    rcases told with done' | dying
    · exact done'
    · exact absurd dying.1 alive
  have stands := sound.stands
  rw [split'] at stands
  have outside : serviceIdRoot ∉ w.schedule := absent_of_other stands.other (unowned_split _)
  have room := sound.scheduleRoom exclusive found (by simp [done']) outside
  have running : ((w.setPool (w.pool.takeOut serviceIdRoot)).pool.hang msg.session).2 = true :=
    (hang_takeOut _ _ _).trans hangs.running
  simp only [World.step, Option.ite_none_right_eq_some] at is
  obtain ⟨⟨u, phase⟩, held, next⟩ := Option.bind_eq_some_iff.mp is.2
  obtain ⟨rfl, rfl⟩ := Prod.mk.inj (Option.some.inj (hangs.owner.symm.trans held))
  simp only [World.ownerStep, if_neg hangs.alive, hangs.out, Option.some.injEq] at next
  rw [dispatchOutMessage, if_pos hangs.system, dispatchScheduleMessage_running hangs.kind running,
    scheduleBack_room (by simpa [World.setPool, Pool.takeOut] using room)] at next
  exact next.symm

variable {s : Settings} {ncores : ℕ} {d : D} {start final : World D}
  {steps : List (World D × Action D)}

end World

end WindLtask.Runtime
