import HeapFlow.Proofs.Turning

/-!
# Coarser contexts

Policies differ in the contexts that they tell apart, and in nothing else. Where contexts can be
turned into those of another policy (`Policy.Coarsening`), every fact that is derivable with the one
is derivable with the other in the contexts it turns into. Contexts may be forgotten, cut to fewer
elements, and objects in them replaced by the types that contain their allocations.
-/

namespace HeapFlow

open List

section Last

variable {α : Type} (l : List α)

theorem rtake_rtake_of_le {m n : Nat} (h : n ≤ m) : (l.rtake m).rtake n = l.rtake n := by
  simp only [rtake_eq_reverse_take_reverse, reverse_reverse, take_take, Nat.min_eq_left h]

/-- Of a list that gets one more element, the last `k` depend on its own last `k - 1`. -/
theorem rtake_rtake_concat (a : α) {k n : Nat} (h : k ≤ n + 1) :
    (l.rtake n ++ [a]).rtake k = (l ++ [a]).rtake k := by
  cases k with
  | zero => simp only [rtake_zero]
  | succ k =>
    rw [rtake_concat_succ, rtake_concat_succ, rtake_rtake_of_le l (Nat.le_of_succ_le_succ h)]

end Last

/-- **A way to turn the contexts of one policy into those of another**: it makes no difference
whether contexts are put together first, or turned first. -/
structure Policy.Coarsening (P Q : Policy) where
  method : Ctx → Ctx
  object : Ctx → Ctx
  method_nil : method [] = []
  object_nil : object [] = []
  heap : ∀ C, object (P.heapCtx C) = Q.heapCtx (method C)
  site : ∀ S, method (P.siteCtx S) = Q.siteCtx (S.turn method)
  recv : ∀ S O, method (P.recvCtx S O) = Q.recvCtx (S.turn method) (O.turn object)

/-- An element of a context with the containing type in the place of an object. -/
def Mark.typed : Mark → Mark
  | .obj o => .type o.containerType
  | a => a

/-- The same analysis with another policy. -/
def Setup.under (g : Setup) (Q : Policy) : Setup :=
  { g with policy := Q }

namespace Policy.Coarsening

section Rules

variable {g : Setup} {Q : Policy} (F : Coarsening g.policy Q)

/-- **Derivations are turned along with contexts.** -/
theorem between : (Turn.ofContexts F.method F.object).Between g (g.under Q) where
  program := .refl _
  bodies := id
  models _ := id
  starts hb := ⟨_, hb, id⟩
  entries _ := id
  implicitEntries _ := id
  arguments hn := ⟨_, hn, rfl, rfl⟩
  method_nil := F.method_nil
  object_nil := F.object_nil
  heap := F.heap
  site := F.site
  recv := F.recv
  type _ := rfl
  arrays _ _ _ _ := List.map_id _
  constant _ := Option.map_id_apply

end Rules

/-- All contexts are forgotten. -/
def forget (P : Policy) : Coarsening P .insensitive where
  method _ := []
  object _ := []
  method_nil := rfl
  object_nil := rfl
  heap _ := rfl
  site _ := rfl
  recv _ _ := rfl

/-- Contexts are cut to `k` elements, and those of objects to `k - 1`. -/
def cut {P Q : Policy} (k : Nat) (hP : P.limit = k + 1) (hQ : Q.limit = k)
    (site : ∀ S, (P.siteCtx S).rtake k = Q.siteCtx (S.turn fun C => C.rtake k))
    (recv : ∀ S O, (P.recvCtx S O).rtake k =
      Q.recvCtx (S.turn fun C => C.rtake k) (O.turn fun C => C.rtake (k - 1))) :
    Coarsening P Q where
  method C := C.rtake k
  object C := C.rtake (k - 1)
  method_nil := rtake_nil k
  object_nil := rtake_nil (k - 1)
  heap C := by simp only [heapCtx, hP, hQ, Nat.add_sub_cancel]
  site := site
  recv := recv

theorem rtake_concat_cut (C : Ctx) (a : Mark) {k n : Nat} (h : k ≤ n + 1) :
    ((C ++ [a]).rtake (k + 1)).rtake k = (C.rtake n ++ [a]).rtake k := by
  rw [rtake_rtake_of_le _ (Nat.le_succ k), rtake_rtake_concat _ _ h]

/-- Contexts of calls are cut by one call. -/
def cutCalls (k : Nat) : Coarsening (.call (k + 1)) (.call k) :=
  cut k rfl rfl (fun S => rtake_concat_cut S.ctx _ (Nat.le_succ k))
    (fun S _ => rtake_concat_cut S.ctx _ (Nat.le_succ k))

/-- Contexts of objects are cut by one object. -/
def cutObjects (k : Nat) : Coarsening (.obj (k + 1)) (.obj k) :=
  cut k rfl rfl (fun _ => rfl) (fun _ O => rtake_concat_cut O.ctx _ (by omega))

/-- Contexts of types are cut by one type. -/
def cutTypes (k : Nat) : Coarsening (.type (k + 1)) (.type k) :=
  cut k rfl rfl (fun _ => rfl) (fun _ O => rtake_concat_cut O.ctx _ (by omega))

/-- In contexts, objects are replaced by the types that contain their allocations. -/
def typeObjects (k : Nat) : Coarsening (.obj k) (.type k) where
  method C := C.map Mark.typed
  object C := C.map Mark.typed
  method_nil := rfl
  object_nil := rfl
  heap C := map_rtake C Mark.typed (k - 1)
  site _ := rfl
  recv S O := by
    simp only [recvCtx, At.turn]
    rw [map_rtake, map_append]
    rfl

end Policy.Coarsening

end HeapFlow
