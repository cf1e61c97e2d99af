import Workflow.Server.Address
import Workflow.Server.Client

/-!
# Without a network

Where there is no network every request is well formed or not, but none is answered. A
request is well formed if its address has a host, its credential can stand in a header,
and its address is one to ask for documents at and can be sent as it is written.
-/

namespace Workflow

/-- The characters of a host that cannot be sent. -/
def Authority.unsent : List Char := ['"', '\x60', '\x7b', '\x7d']

/-- The greatest number of bytes in an address that is sent. -/
def Address.sentLimit : Nat := 65534

/-- Whether an address can be sent. -/
def Address.isSendable (a : Address) : Bool :=
  a.isWeb && a.text.utf8ByteSize ≤ sentLimit &&
    !a.authority.any fun authority => authority.host.any Authority.unsent.contains

namespace Request

/-- Whether a credential can stand in a header. -/
def hasPlainToken (r : Request) : Bool :=
  r.token.toList.all fun c => c == '\t' || (0x20 ≤ c.toNat && c.toNat != 0x7f)

/-- Why a request gets no answer where there is no network. -/
def unanswered (r : Request) : String :=
  match Address.read? r.url with
  | none => "builder error"
  | some address =>
    if !address.hasHost then "builder error for url (" ++ address.text ++ ")"
    else if !r.hasPlainToken then "builder error"
    else
      let sent := address.withoutUser
      (if sent.isSendable then "error sending request" else "builder error") ++
        " for url (" ++ sent.text ++ ")"

end Request

/-- The transport of a host without a network. -/
def Transport.offline {m : Type → Type} [Monad m] : Transport m := fun r =>
  pure (.error r.unanswered)

end Workflow
