import Webtermo.Execution.Config.Theorems.Frame
import Webtermo.Objects.XmlParser

namespace Config

variable {atof : Bytes → UInt32} {b : Body} {c : Cmd} {h : Handler} {s s₁ : State}

-- What a command does with the text of its tag
theorem exec_posted (hc : c ∈ h.cmds) (ht : c.tag = some tag) (hn : ∀ t a, c ≠ .text t a)
    (hp : XmlParser.Text tag b.bytes t) :
    c.exec atof b s = (s.tb.strcpy t).bind fun tb =>
      if t = [] then some ({ s with tb }, []) else c.parse atof t.length { s with tb } := by
  obtain ⟨hl, he⟩ := h.tag_fits hc ht
  have hx : xmlParser tag b s.tb = _ := XmlParser.xmlParser_of_text hl he hp
  simp only [Cmd.exec, Cmd.receive, ht, hx]
  cases s.tb.strcpy t with
  | none => rfl
  | some tb =>
    simp only [Option.map_some, Option.bind_eq_bind, Option.bind_some, List.length_eq_zero_iff]
    split
    case isTrue => simp [finish_eq hn ht]
    case isFalse => cases c.parse atof t.length { s with tb } <;> simp [finish_eq hn ht]

-- No byte is the next one, so that a setting can hold another value than the one that is written.
theorem succ_ne : ∀ a : UInt8, a + 1 ≠ a :=
  forall_byte <| by decide +kernel

-- A body that has nothing but a text with its tag
def posting (tag t : Bytes) : Body :=
  ⟨tag ++ (t ++ [60]), []⟩

theorem posting_text (h : 60 ∉ t) : XmlParser.Text tag (posting tag t).bytes t :=
  ⟨⟨[], [], rfl, fun _ _ _ => Nat.zero_le _⟩, h⟩

end Config
