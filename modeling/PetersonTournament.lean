import PetersonTournament.Lock
import PetersonTournament.Node
import PetersonTournament.Pool
import PetersonTournament.Spinlocks
import PetersonTournament.Pair
import PetersonTournament.Ptest
import PetersonTournament.PtestLiveness
import PetersonTournament.Library
import PetersonTournament.Tournament
import PetersonTournament.TreeInvariant
import PetersonTournament.TreeBypass
import PetersonTournament.TreeLiveness
import PetersonTournament.Mutex
import PetersonTournament.TreeRefinement
import PetersonTournament.TournamentMain
import PetersonTournament.TournamentMainLiveness
import PetersonTournament.KernelView
