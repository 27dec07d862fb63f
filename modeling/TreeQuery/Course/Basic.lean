import TreeQuery.Error

/-! The course of a lazy enumeration, laid out as one sequence of events and items. -/

namespace TreeQuery

/-- A course ends, with an error or without, or it is left open how it goes on. -/
inductive Course (E A : Type) where
  | done
  | failed (error : MatchError)
  | pending
  | event (event : E) (rest : Course E A)
  | item (item : A) (rest : Course E A)

namespace Course

variable {E A B C : Type}

def pure (a : A) : Course E A := item a done

def append : Course E A → Course E A → Course E A
  | done, after => after
  | failed error, _ => failed error
  | pending, _ => pending
  | event e rest, after => event e (rest.append after)
  | item a rest, after => item a (rest.append after)

instance : Append (Course E A) := ⟨append⟩

/-- Puts in place of each item the course that the item leads to. -/
def bind (next : A → Course E B) : Course E A → Course E B
  | done => done
  | failed error => failed error
  | pending => pending
  | event e rest => event e (rest.bind next)
  | item a rest => next a ++ rest.bind next

def concat : List (Course E A) → Course E A
  | [] => done
  | course :: courses => course ++ concat courses

theorem done_append (c : Course E A) : done ++ c = c := rfl

theorem failed_append (error : MatchError) (c : Course E A) : failed error ++ c = failed error :=
  rfl

theorem pending_append (c : Course E A) : pending ++ c = pending := rfl

theorem event_append (e : E) (c d : Course E A) : event e c ++ d = event e (c ++ d) := rfl

theorem item_append (a : A) (c d : Course E A) : item a c ++ d = item a (c ++ d) := rfl

theorem append_done (c : Course E A) : c ++ done = c := by
  induction c with
  | done | failed | pending => rfl
  | event e rest ih => rw [event_append, ih]
  | item a rest ih => rw [item_append, ih]

theorem append_assoc (c d f : Course E A) : c ++ d ++ f = c ++ (d ++ f) := by
  induction c with
  | done | failed | pending => rfl
  | event e rest ih => rw [event_append, event_append, event_append, ih]
  | item a rest ih => rw [item_append, item_append, item_append, ih]

theorem pure_bind (a : A) (next : A → Course E B) : (pure a).bind next = next a :=
  append_done _

theorem bind_pure (c : Course E A) : c.bind pure = c := by
  induction c with
  | done | failed | pending => rfl
  | event e rest ih => rw [bind, ih]
  | item a rest ih => rw [bind, ih]; rfl

theorem append_bind (c d : Course E A) (next : A → Course E B) :
    (c ++ d).bind next = c.bind next ++ d.bind next := by
  induction c with
  | done | failed | pending => rfl
  | event e rest ih => rw [event_append, bind, bind, ih, event_append]
  | item a rest ih => rw [item_append, bind, bind, ih, append_assoc]

theorem bind_assoc (c : Course E A) (next : A → Course E B) (last : B → Course E C) :
    (c.bind next).bind last = c.bind fun a => (next a).bind last := by
  induction c with
  | done | failed | pending => rfl
  | event e rest ih => rw [bind, bind, bind, ih]
  | item a rest ih => rw [bind, bind, append_bind, ih]

end Course

end TreeQuery
