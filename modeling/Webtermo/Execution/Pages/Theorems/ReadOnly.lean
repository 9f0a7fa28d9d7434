import Webtermo.Execution.Pages.Theorems.Document
import Webtermo.Execution.Pages.Theorems.Files

open Define

namespace Pages

variable {env : Env} {ans : Answers} {s s₁ : State} {page : Page} {name : Bytes} {file : File}
  {fs : Files} {d : DirAnswers}

-- What is left as it is apart from the time, and from the flag that the credit page sets
def Env.Same (page : Page) (env env₁ : Env) : Prop :=
  env₁ = { env with
    clock        := env₁.clock
    creditActive := if page = .startcredit then true else env.creditActive }

-- What a page sets besides is what it was before.
def Page.Settled (env : Env) (ans : Answers) : Page → Prop
  | sms             => env.credit.bytes.take 1 = [0]
  | startcredit     => env.credit.bytes.take 5 = ascii "WAIT" ++ [0]
  | disk0 | logfile => env.totsect = ans.total ∧ env.freesect = ans.free
  | _               => True

theorem fsOpen_eq (h : table.lookup name = some page) : fsOpen s ans file name =
    (page.generate s ans file.data).map fun (s₁, r) => (s₁, ⟨.xml, r.len.toNat⟩, r.copied) := by
  simp only [fsOpen, h, Option.bind_eq_bind, Option.bind_some]
  cases page.generate s ans file.data <;> rfl

-- No page leaves a buffer behind that a later one could be copied to.
theorem fsOpen_data (h : fsOpen s ans file name = some (s₁, f, c)) : f.data = .xml := by
  simp only [fsOpen, Option.bind_eq_bind, Option.bind_eq_some_iff] at h
  have ⟨_, _, _, _, h⟩ := h
  cases h
  rfl

-- Nothing is open.
def Files.start : Files :=
  ⟨[], ⟨0, 0, 0, 0, 0, 0⟩, .zero 52, .zero 264, 0, false⟩

def DirAnswers.opened : DirAnswers :=
  ⟨0, .zero 52, .zero 264, fun _ => ⟨fun _ => none, fun _ => 0, 0⟩⟩

end Pages
