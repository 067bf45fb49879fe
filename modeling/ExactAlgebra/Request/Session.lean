import ExactAlgebra.Request.Basic

namespace ExactAlgebra.Request

-- A request and the register that keeps its value, if there is one to keep.
structure Step where
  request : Request
  register? : Option String

def Step.run (rs : Registers) (s : Step) : Answer × Registers :=
  let a := s.request.run rs
  match s.register?, a.value? with
  | some r, some v => (a, (r, v) :: rs)
  | _, _           => (a, rs)

-- The answers to the steps of a session, which start from the given registers.
def session (rs : Registers) : List Step → List Answer
  | []      => []
  | s :: ss =>
    let (a, rs) := s.run rs
    a :: session rs ss

end ExactAlgebra.Request
