namespace CoreWar

structure Queue (α : Type) where
  front : List α := []
  back : List α := []
  size : Nat := 0
  size_eq : size = front.length + back.length := by rfl

namespace Queue

variable {α : Type}

/-- The elements in the order in which they leave. -/
def toList (queue : Queue α) : List α := queue.front ++ queue.back.reverse

def isEmpty (queue : Queue α) : Bool := queue.size == 0

def push (queue : Queue α) (a : α) : Queue α where
  front := queue.front
  back := a :: queue.back
  size := queue.size + 1
  size_eq := by simp only [queue.size_eq, List.length_cons]; omega

def ofList (elements : List α) : Queue α where
  front := elements
  back := []
  size := elements.length
  size_eq := rfl

def pop? (queue : Queue α) : Option (α × Queue α) :=
  match queue with
  | ⟨a :: front, back, size, h⟩ =>
    some (a, ⟨front, back, size - 1, by simp only [h, List.length_cons]; omega⟩)
  | ⟨[], back, _, _⟩ =>
    match back.reverse with
    | [] => none
    | a :: front => some (a, ofList front)

def head? (queue : Queue α) : Option α := queue.pop?.map (·.1)

theorem length_toList (queue : Queue α) : queue.toList.length = queue.size := by
  simp [toList, queue.size_eq]

theorem toList_push (queue : Queue α) (a : α) : (queue.push a).toList = queue.toList ++ [a] := by
  simp [toList, push]

theorem toList_ofList (elements : List α) : (ofList elements).toList = elements := by
  simp [toList, ofList]

theorem pop?_eq_none_iff (queue : Queue α) : queue.pop? = none ↔ queue.toList = [] := by
  obtain ⟨front, back, size, h⟩ := queue
  cases front with
  | cons a front => simp [pop?, toList]
  | nil =>
    simp only [pop?, toList, List.nil_append]
    cases back.reverse <;> simp

theorem toList_of_pop? {queue rest : Queue α} {a : α} (h : queue.pop? = some (a, rest)) :
    queue.toList = a :: rest.toList := by
  obtain ⟨front, back, size, hs⟩ := queue
  cases front with
  | cons b front =>
    simp only [pop?, Option.some.injEq, Prod.mk.injEq] at h
    obtain ⟨rfl, rfl⟩ := h
    simp [toList]
  | nil =>
    simp only [pop?] at h
    cases hb : back.reverse with
    | nil => simp [hb] at h
    | cons b front =>
      simp only [hb, Option.some.injEq, Prod.mk.injEq] at h
      obtain ⟨rfl, rfl⟩ := h
      simp [toList, ofList, hb]

end Queue

end CoreWar
