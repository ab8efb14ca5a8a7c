import Mathlib.Algebra.Order.Ring.Nat

namespace Lib.Gcra
set_option autoImplicit true

/-- The runs of one limiter of the generic cell rate algorithm: the time, the theoretical arrival
time while there is debt, and the instants of the admissions, the last one first. A limiter may
forget a debt that is over, and may be charged without admitting. -/
inductive Paced (interval burst : Nat) : Nat → Option Nat → List Nat → Prop where
  | start : Paced interval burst 0 none []
  | wait (h : Paced interval burst now tat times) (hnow : now ≤ now') :
    Paced interval burst now' tat times
  | forget (h : Paced interval burst now (some tat) times) (hover : tat ≤ now) :
    Paced interval burst now none times
  | charge (h : Paced interval burst now tat times) :
    Paced interval burst now (some (max (tat.getD now) now + interval)) times
  | accept (h : Paced interval burst now tat times)
    (hallowed : tat.getD now ≤ now + interval * (burst - 1)) :
    Paced interval burst now (some (max (tat.getD now) now + interval)) (now :: times)

def within (a b : Nat) (times : List Nat) : Nat := times.countP fun t => a ≤ t && t ≤ b

/-- The next arrival is put off by an interval for every admission of the window. -/
def Owes (interval a : Nat) (n now : Nat) (tat : Option Nat) : Prop :=
  n = 0 ∨ a + n * interval ≤ max (tat.getD now) now

theorem Owes.wait (h : Owes interval a n now tat) (hnow : now ≤ now') :
    Owes interval a n now' tat := by
  refine h.imp_right fun hle => hle.trans ?_
  cases tat with
  | none => exact max_le_max hnow hnow
  | some tat => exact max_le_max le_rfl hnow

theorem Owes.forget (h : Owes interval a n now (some tat)) (hover : tat ≤ now) :
    Owes interval a n now none := by
  refine h.imp_right fun hle => hle.trans ?_
  rw [Option.getD_some, max_eq_right hover]
  exact le_max_right ..

theorem Owes.charge (h : Owes interval a n now tat) :
    Owes interval a n now (some (max (tat.getD now) now + interval)) := by
  refine h.imp_right fun hle => ?_
  rw [Option.getD_some]
  exact hle.trans ((Nat.le_add_right _ interval).trans (le_max_left ..))

theorem Owes.accept (h : Owes interval a n now tat) (ha : a ≤ now) :
    Owes interval a (n + 1) now (some (max (tat.getD now) now + interval)) := by
  right
  rw [Option.getD_some, Nat.add_mul, Nat.one_mul]
  refine le_trans ?_ (le_max_left ..)
  rcases h with rfl | hle
  · have hnow := le_max_right (tat.getD now) now
    omega
  · omega

theorem Owes.count_le {interval burst a b n now : Nat} {tat : Option Nat}
    (h : Owes interval a n now tat) (hinterval : 0 < interval) (hburst : 0 < burst) (ha : a ≤ now)
    (hb : now ≤ b) (hallowed : tat.getD now ≤ now + interval * (burst - 1)) :
    n + 1 ≤ burst + (b - a) / interval := by
  rcases h with rfl | hle
  · exact hburst.trans_le (Nat.le_add_right ..)
  have hmax : max (tat.getD now) now ≤ now + interval * (burst - 1) :=
    max_le hallowed (Nat.le_add_right ..)
  have hpaid : (n - (burst - 1)) * interval ≤ b - a := by
    rw [Nat.sub_mul, Nat.mul_comm (burst - 1)]
    omega
  have hdiv := (Nat.le_div_iff_mul_le hinterval).2 hpaid
  omega

theorem within_cons (a b t : Nat) (times : List Nat) :
    within a b (t :: times) = within a b times + if a ≤ t ∧ t ≤ b then 1 else 0 := by
  rw [within, List.countP_cons, within]
  simp only [Bool.and_eq_true, decide_eq_true_eq]

/-- In every closed window a limiter admits at most its burst and one more for every interval. -/
theorem Paced.within_le (h : Paced interval burst now tat times) (hinterval : 0 < interval)
    (hburst : 0 < burst) (a b : Nat) : within a b times ≤ burst + (b - a) / interval := by
  suffices hs : Owes interval a (within a b times) now tat ∧
      within a b times ≤ burst + (b - a) / interval from hs.2
  induction h with
  | start => exact ⟨.inl rfl, Nat.zero_le _⟩
  | wait _ hnow ih => exact ⟨ih.1.wait hnow, ih.2⟩
  | forget _ hover ih => exact ⟨ih.1.forget hover, ih.2⟩
  | charge _ ih => exact ⟨ih.1.charge, ih.2⟩
  | @accept now tat times _ hallowed ih =>
    rw [within_cons]
    split
    · next hin => exact ⟨ih.1.accept hin.1, ih.1.count_le hinterval hburst hin.1 hin.2 hallowed⟩
    · exact ⟨ih.1.charge, ih.2⟩

end Lib.Gcra
